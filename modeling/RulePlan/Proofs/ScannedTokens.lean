import RulePlan.Proofs.ScannerRun

/-!
# RulePlan.Proofs.ScannedTokens — what reading one token does

One step lemma for every kind of token that stands in a written document: the name of a key and the
colon after it, the dash of an item, a text or number, and a list in brackets with its items. Each
says which tokens are added to those read so far and where the next one stands. A name is read
before it is known to be a key; its colon then puts the tokens for the key, and for the mapping if
it is the first one, in front of it.
-/

namespace RulePlan.Yaml.Scanner

/-! ## What all tokens share -/

theorem step_of {st next : Status} (hunended : .streamEnd ∉ st.kinds)
    (hshrinks : next.rest.length < st.rest.length) (hgrows : st.kinds.length ≤ next.kinds.length)
    (hbounded : next.kinds.length + next.columns.length + 4 * next.rest.length
      ≤ st.kinds.length + st.columns.length + 4 * st.rest.length)
    (h : ∀ {out : List Token} {s : Scanner}, Stands out st s →
      ∃ t, s.fetchToken = .ok t ∧ At out next t) : Step st next :=
  ⟨hunended, hshrinks, hgrows, hbounded, fun hat => hat.fetch (h hat.stands)⟩

/-- Ending blocks turns open blocks into tokens. -/
theorem Status.before_length (st : Status) (column : Nat) (keyAllowed : Bool)
    (content : List Char) :
    (st.before column keyAllowed content).kinds.length
      + (st.before column keyAllowed content).columns.length
        = st.kinds.length + st.columns.length := by
  have hle : ending st.depth column st.columns ≤ st.columns.length := by
    unfold ending
    split
    · exact Nat.zero_le _
    · exact (List.takeWhile_prefix _).length_le
  simp only [before, List.length_append, List.length_replicate, List.length_drop]
  omega

/-- The status at the first content after something, on a line of its own. -/
def Status.below (kinds : List Token.Kind) (columns : List Nat) (m : Nat) (content : List Char) :
    Status :=
  { kinds := kinds ++ List.replicate (ending 0 m columns) .blockEnd
    rest := content
    column := m
    columns := columns.drop (ending 0 m columns)
    depth := 0
    keyAllowed := true
    key := .optional }

/-- A rest of the line without a comment: spaces, and then neither a blank nor a hash. -/
def Uncommented (rest : List Char) : Prop :=
  ∃ n content, rest = List.replicate n ' ' ++ content
    ∧ ∀ d ∈ content.head?, isBlank d = false ∧ d ≠ '#'

theorem Begins.uncommented {content : List Char} (h : Begins content) (n : Nat) :
    Uncommented (List.replicate n ' ' ++ content) := by
  refine ⟨n, content, rfl, fun d hd => ⟨isBlank_eq_false (h.1 d hd), ?_⟩⟩
  rintro rfl
  exact h.2 hd

theorem uncommented_newline (rest : List Char) : Uncommented ('\n' :: rest) :=
  ⟨0, '\n' :: rest, rfl, by simp [isBlank]⟩

theorem skipTrailingComment_eq {c : Cursor} (h : Uncommented c.rest) :
    c.skipTrailingComment = c := by
  obtain ⟨n, content, hrest, hcontent⟩ := h
  have hstop : content.takeWhile isBlank = [] := by
    cases content with
    | nil => rfl
    | cons d content => exact List.takeWhile_cons_of_neg (by simp [(hcontent d rfl).1])
  have hblanks : (c.rest.takeWhile isBlank).length = n := by
    rw [hrest, List.takeWhile_append_of_pos (by simp [List.mem_replicate, isBlank]), hstop]
    simp
  have hchar : (c.char n == '#') = false := by
    rw [Cursor.char, hrest, List.getD_eq_getElem?_getD, List.getElem?_append_right (by simp)]
    cases content with
    | nil => simp [endMark]
    | cons d content => simpa using (hcontent d rfl).2
  simp [Cursor.skipTrailingComment, hblanks, hchar]

section

variable {out : List Token} {st : Status} {s t : Scanner} {d : Char} {rest : List Char}

theorem startsDocument_eq_false {c : Cursor} {sign : Char} (hrest : c.rest = d :: rest)
    (h : ¬(c.column = 0 ∧ d = sign)) : c.startsDocument sign = false := by
  have hchar : c.char 0 = d := by rw [Cursor.char, hrest]; rfl
  rw [not_and_or] at h
  obtain hcolumn | hne := h
  · simp [Cursor.startsDocument, hcolumn]
  · simp [Cursor.startsDocument, hchar, hne]

/-- A token that is not at the start of a line, or is a name, is read as such. -/
theorem Stands.fetchToken (h : Stands out st s) (hrest : st.rest = d :: rest)
    (hd : 0 < st.column ∨ d.isAlphanum) (hline : s.inLine = .ok t)
    (htrail : t.endsWithDash = true ∨ Uncommented t.cursor.rest) : s.fetchToken = .ok t := by
  have hcursor : s.cursor.rest = d :: rest := h.rest.trans hrest
  have hhead : s.cursor.head = d := Cursor.head_cons hcursor
  have hend : s.cursor.isEnd = false := by rw [Cursor.isEnd, hcursor]; rfl
  have hplain : ∀ sign, sign ∈ ['%', '-', '.'] → ¬(s.cursor.column = 0 ∧ d = sign) := by
    rintro sign hsign ⟨hcolumn, rfl⟩
    obtain hpos | halnum := hd
    · rw [h.column] at hcolumn
      omega
    · revert halnum
      revert hsign
      simp only [List.mem_cons, List.not_mem_nil, or_false]
      rintro (rfl | rfl | rfl) <;> decide
  have hdocument : ∀ sign, sign ∈ ['%', '-', '.'] → s.cursor.startsDocument sign = false :=
    fun sign hsign => startsDocument_eq_false hcursor (hplain sign hsign)
  rw [Scanner.fetchToken, hend, hhead, if_neg (by simp), if_neg (hplain '%' (by simp)),
    hdocument '-' (by simp), hdocument '.' (by simp), hline]
  simp only [Bool.false_eq_true, if_false, Except.map]
  obtain hdash | htrail := htrail
  · rw [if_pos hdash]
  · rw [skipTrailingComment_eq htrail, ite_self]

/-- Where the cursor is behind a word of the line. -/
theorem Stands.behind (h : Stands out st s) (word : List Char) {rest : List Char}
    (hrest : st.rest = word ++ rest) :
    (s.cursor.skips word.length).rest = rest
      ∧ rest.length ≤ (s.cursor.skips word.length).size
      ∧ (s.cursor.skips word.length).column = st.column + word.length := by
  obtain ⟨hafter, hcolumn, -⟩ := Cursor.skips_word (h.rest.trans hrest)
  have hsize := h.size
  rw [hrest, List.length_append] at hsize
  refine ⟨hafter, ?_, by rw [hcolumn, h.column]⟩
  rw [Cursor.skips_size]
  exact (Nat.le_add_left _ _).trans hsize

/-! ## Possible keys -/

theorem Stands.inBrackets (h : Stands out st s) (hdepth : st.depth = 0) : s.inBrackets = false := by
  simp [Scanner.inBrackets, h.depth, hdepth]

theorem Tracks.optional {key : KeyState} {k : PossibleKey} {outer : List PossibleKey}
    (h : s.Tracks key k outer) (hkey : key.Free) :
    s.Tracks .optional k outer := by
  refine ⟨h.keys, h.depth, h.outer, h.owners, ?_⟩
  have hstate := h.state
  cases key with
  | none => exact fun hk => absurd hstate (by simp [hk])
  | optional => exact hstate
  | awaited number column => exact hkey.elim

/-- The possible key that starts at the place of a scanner. -/
def keyHere (s : Scanner) : PossibleKey :=
  { possible := true
    required := !s.inBrackets && s.columns.head? == some s.cursor.column
    number := s.nextNumber
    index := s.cursor.index
    line := s.cursor.line
    column := s.cursor.column }

/-- Where a key may start, it is remembered instead of the last one. -/
theorem Stands.saveKey (h : Stands out st s) (hallowed : st.keyAllowed = true)
    (hkey : st.key.Free) :
    ∃ outer, outer.length = s.depth ∧ (∀ o ∈ outer, o.possible = false)
      ∧ s.saveKey = .ok { s with
        keys := s.keyHere :: outer
        owners := [(s.nextNumber, s.depth)] } := by
  obtain ⟨k, outer, ht⟩ := h.tracks
  obtain ⟨k', -, hremove⟩ := ht.removeKey hkey
  refine ⟨outer, ht.depth, ht.outer, ?_⟩
  rw [Scanner.saveKey, if_neg (by simp [h.keyAllowed, hallowed]), hremove]
  rfl

/-- A token that may be a key but need not leaves an optional key. -/
theorem Stands.saveKey_optional (h : Stands out st s)
    (hkey : st.key.Free)
    (hfree : st.keyAllowed = true → 0 < st.depth ∨ st.columns.head? ≠ some st.column) :
    ∃ keys owners k outer, s.saveKey = .ok { s with keys, owners }
      ∧ Tracks { s with keys, owners } .optional k outer := by
  cases hallowed : st.keyAllowed with
  | false =>
    obtain ⟨k, outer, ht⟩ := h.tracks
    refine ⟨s.keys, s.owners, k, outer, ?_, ht.optional hkey⟩
    rw [Scanner.saveKey, if_pos (by simp [h.keyAllowed, hallowed])]
  | true =>
    obtain ⟨outer, hdepth, houter, hsave⟩ := h.saveKey hallowed hkey
    refine ⟨_, _, s.keyHere, outer, hsave, rfl, hdepth, houter, ?_, fun _ => ?_⟩
    · intro e he
      obtain rfl : e = (s.nextNumber, s.depth) := by simpa using he
      exact ⟨rfl, rfl⟩
    · obtain hin | hout := hfree hallowed
      · simp [keyHere, Scanner.inBrackets, h.depth, hin]
      · simp [keyHere, h.columns, h.column, hout]

/-- The tokens of a scanner with one more in its queue. -/
theorem Stands.kinds_push (h : Stands out st s) (kind : Token.Kind) (line : Nat) :
    (out ++ (s.queue ++ [(⟨kind, line⟩ : Token)])).map Token.kind = st.kinds ++ [kind] := by
  rw [← List.append_assoc, List.map_append, h.kinds]
  rfl

theorem Stands.nextNumber (h : Stands out st s) : s.nextNumber = st.kinds.length := by
  rw [Scanner.nextNumber, h.released, ← h.kinds, List.length_map, List.length_append]

/-! ## Scalars -/

/-- A character that no token but a plain scalar starts with. -/
theorem inLine_plain (hgap : isGap s.cursor.head = false)
    (hindicator : Style.isIndicator s.cursor.head = false)
    (hsign : s.cursor.head = '-' ∨ s.cursor.head = '?' ∨ s.cursor.head = ':' →
      s.inBrackets = false ∧ isGap (s.cursor.char 1) = false) : s.inLine = s.plain := by
  generalize hd : s.cursor.head = d at hgap hindicator hsign
  simp only [Style.isIndicator, List.mem_cons, List.not_mem_nil, or_false, not_or,
    decide_eq_false_iff_not] at hindicator
  have hstarts : Plain.startsAt s.inBrackets s.cursor = true := by
    simp only [Plain.startsAt, hd, hgap]
    by_cases hs : d = '-' ∨ d = '?' ∨ d = ':'
    · obtain ⟨hbrackets, hnext⟩ := hsign hs
      rw [hbrackets, hnext, isBlank_eq_false hnext]
      obtain rfl | rfl | rfl := hs <;> simp
    · rw [not_or, not_or] at hs
      simp [hs, hindicator]
  have hdash : (d == '-' && isGap (s.cursor.char 1)) = false := by
    by_cases hs : d = '-'
    · simp [(hsign (.inl hs)).2]
    · simp [hs]
  have hmark : (d == '?' && (s.inBrackets || isGap (s.cursor.char 1))) = false := by
    by_cases hs : d = '?'
    · simp [hsign (.inr (.inl hs))]
    · simp [hs]
  have hcolon : (d == ':' && (s.inBrackets || isGap (s.cursor.char 1))) = false := by
    by_cases hs : d = ':'
    · simp [hsign (.inr (.inr hs))]
    · simp [hs]
  simp only [inLine, hd, hdash, hmark, hcolon, hstarts, beq_iff_eq, hindicator,
    Bool.false_eq_true, if_false, if_true, Bool.or_eq_true, Bool.and_eq_true,
    or_self, false_and]

/-- A text that needs no quotes starts like no other token. -/
theorem inLine_unquoted {text rest : List Char} (htext : Style.Unquoted text)
    (hrest : s.cursor.rest = text ++ rest) (hbrackets : s.inBrackets = false) :
    s.inLine = s.plain := by
  obtain ⟨d, more, rfl⟩ := List.exists_cons_of_ne_nil htext.ne_nil
  have hhead : s.cursor.head = d := Cursor.head_cons hrest
  have hspace : d ≠ ' ' := fun e => htext.head_space (by simp [e])
  refine inLine_plain ?_ ?_ ?_ <;> rw [hhead]
  · exact isGap_eq_false (htext.legible d List.mem_cons_self) hspace
  · exact htext.head_indicator d rfl
  · -- a sign is the start of a word only if the word goes on
    intro hsign
    refine ⟨hbrackets, ?_⟩
    have hblank := htext.head_sign d more rfl hsign
    cases more with
    | nil => simp [Style.blankNext] at hblank
    | cons e more =>
      rw [Cursor.char_cons hrest]
      refine isGap_eq_false (htext.legible e (by simp)) fun hes => ?_
      simp [Style.blankNext, isBlank, hes] at hblank

/-- The status after a scalar of the line. -/
def Status.scalar (st : Status) (plain : Bool) (text : String) : Status :=
  { st with kinds := st.kinds ++ [.scalar plain text], key := .optional }

/-- A text without quotes is read up to the next line. -/
theorem Stands.plain_text (h : Stands out st s) {text : String} (htext : Style.Unquoted text.toList)
    {m : Nat} {content : List Char} (hcontent : Begins content)
    (hrest : st.rest = text.toList ++ '\n' :: (List.replicate m ' ' ++ content))
    (hdepth : st.depth = 0) (hkey : st.key.Free)
    {top : Nat} {columns : List Nat} (hcolumns : st.columns = top :: columns)
    (htop : top < st.column) (hm : m ≤ top) :
    ∃ t, s.fetchToken = .ok t ∧ At out ((st.scalar true text).before m true content) t := by
  obtain ⟨keys, owners, k, outer, hsave, ht⟩ := h.saveKey_optional hkey
    (by simp [hcolumns]; omega)
  have hbrackets := h.inBrackets hdepth
  have hcursor := h.rest.trans hrest
  obtain ⟨d, more, hcs⟩ := List.exists_cons_of_ne_nil htext.ne_nil
  have hread : Plain.read false (top + 1) s.cursor
      = .ok ⟨text.toList, true, (s.cursor.skips text.toList.length).nextLine m content⟩ :=
    Plain.read_text hcontent.1 (by omega) htext.toWordy hcursor
      (by rw [h.rest]; exact h.size) (by rw [h.column]; omega) (by rw [h.column]; omega)
  have hinLine := inLine_unquoted htext hcursor hbrackets
  have hplain : s.plain = .ok { s with
      keys, owners
      queue := s.queue ++ [⟨.scalar true text, s.cursor.line⟩]
      keyAllowed := true
      cursor := (s.cursor.skips text.toList.length).nextLine m content } := by
    rw [Scanner.plain, hsave]
    simp only [h.columns, hcolumns, List.head?_cons, Scanner.inBrackets] at hbrackets ⊢
    rw [hbrackets, hread]
    simp [Except.map, take, push]
  refine ⟨_, h.fetchToken (by rw [hrest, hcs]; rfl) (.inl (by omega)) (hinLine.trans hplain) ?_, ?_⟩
  · right
    rw [Cursor.nextLine_rest]
    exact hcontent.uncommented 0
  · have hstands : Stands out { st.scalar true text with
        rest := content, column := m, keyAllowed := true } { s with
        keys, owners
        queue := s.queue ++ [⟨.scalar true text, s.cursor.line⟩]
        keyAllowed := true
        cursor := (s.cursor.skips text.toList.length).nextLine m content } := by
      refine ⟨h.readable, h.unmarked, h.released, h.kinds_push _ _, Cursor.nextLine_rest _ _ _, ?_,
        Cursor.nextLine_column _ _ _, h.columns, h.depth, rfl,
        ⟨k, outer, ht.of_eq trivial rfl rfl rfl⟩⟩
      have hsize := h.size
      simp only [hrest, List.length_append, List.length_cons] at hsize
      simp only [Cursor.nextLine_size, Cursor.skips_size]
      omega
    exact hstands.at_spaces (n := 0) hcontent rfl (.inl trivial)

theorem inLine_quote {quote : Char} (hquote : quote = '\x27' ∨ quote = '\x22')
    (hhead : s.cursor.head = quote) :
    s.inLine = s.mayBeKey fun c =>
      (Quoted.read c).map fun (text, c) => (.scalar false text, c) := by
  obtain rfl | rfl := hquote <;> simp [inLine, hhead]

/-- A text in quotes is read up to the end of its line. -/
theorem Stands.quoted_text (h : Stands out st s) {text : String} {P : Char → Prop}
    (htext : ∀ c ∈ text.toList, P c)
    {quote : Char} {spell : Char → List Char} (hs : Quoted.Spelling P quote spell)
    (hquote : quote = '\x27' ∨ quote = '\x22') {m : Nat} {content : List Char}
    (hcontent : Begins content)
    (hrest : st.rest = quote :: (text.toList.flatMap spell ++ [quote])
      ++ '\n' :: (List.replicate m ' ' ++ content))
    (hdepth : st.depth = 0) (hkey : st.key.Free)
    {top : Nat} {columns : List Nat} (hcolumns : st.columns = top :: columns)
    (htop : top < st.column) :
    ∃ t, s.fetchToken = .ok t ∧ At out ((st.scalar false text).before m true content) t := by
  obtain ⟨keys, owners, k, outer, hsave, ht⟩ := h.saveKey_optional hkey
    (by simp [hcolumns]; omega)
  have hcursor := h.rest.trans hrest
  have hshape : s.cursor.rest = quote :: (text.toList.flatMap spell
      ++ quote :: '\n' :: (List.replicate m ' ' ++ content)) := by
    rw [hcursor]
    simp
  have hstops : Quoted.Stops quote (quote :: '\n' :: (List.replicate m ' ' ++ content)) := by
    refine .quote ?_ ?_
    · intro d hd
      obtain rfl : '\n' = d := by simpa using hd
      obtain rfl | rfl := hquote <;> decide
    · obtain rfl | rfl := hquote <;> decide
  have hread := Quoted.read_text hs htext hstops hshape (by rw [h.rest]; exact h.size)
  obtain ⟨hafter, hsize, hcolumn⟩ := h.behind _ hrest
  generalize (quote :: (text.toList.flatMap spell ++ [quote])).length = length
    at hread hafter hsize hcolumn
  have hinLine : s.inLine = .ok { s with
      keys, owners
      queue := s.queue ++ [⟨.scalar false text, s.cursor.line⟩]
      keyAllowed := false
      cursor := s.cursor.skips length } := by
    rw [inLine_quote hquote (Cursor.head_cons hshape), mayBeKey, hsave]
    simp only [hread]
    rfl
  have hline : Uncommented (s.cursor.skips length).rest := by
    rw [hafter]
    exact uncommented_newline _
  refine ⟨_, h.fetchToken (by rw [hrest]; rfl) (.inl (by omega)) hinLine (.inr hline), ?_⟩
  have hstands : Stands out { st.scalar false text with
      rest := '\n' :: (List.replicate m ' ' ++ content)
      column := st.column + length
      keyAllowed := false } { s with
      keys, owners
      queue := s.queue ++ [⟨.scalar false text, s.cursor.line⟩]
      keyAllowed := false
      cursor := s.cursor.skips length } :=
    ⟨h.readable, h.unmarked, h.released, h.kinds_push _ _, hafter, hsize, hcolumn, h.columns,
      h.depth, rfl, ⟨k, outer, ht.of_eq trivial rfl rfl rfl⟩⟩
  exact hstands.at_newline hcontent hdepth rfl trivial

variable (st) in
/-- **Texts.** Below a block, a text is read up to the line of the next content. -/
theorem step_text {text : String} {plain : Bool} {word content : List Char} {m top : Nat}
    {columns : List Nat} {kinds : List Token.Kind}
    (hword : Style.Spells text plain word) (hcontent : Begins content)
    (hunended : .streamEnd ∉ st.kinds)
    (hrest : st.rest = word ++ '\n' :: (List.replicate m ' ' ++ content))
    (hdepth : st.depth = 0) (hkey : st.key.Free) (hcolumns : st.columns = top :: columns)
    (htop : top < st.column) (hm : m ≤ top) (hkinds : kinds = st.kinds ++ [.scalar plain text]) :
    Step st (.below kinds st.columns m content) := by
  have hbelow : .below kinds st.columns m content
      = (st.scalar plain text).before m true content := by
    rw [hkinds, Status.below, ← hdepth]
    rfl
  rw [hbelow]
  have hlength := (st.scalar plain text).before_length m true content
  have hshorter : content.length + 1 ≤ st.rest.length := by
    rw [hrest]
    simp only [List.length_append, List.length_cons]
    omega
  refine step_of hunended ?_ ?_ ?_ fun h => ?_
  · exact hshorter
  · simp [Status.before, Status.scalar]
  · rw [hlength]
    simp only [Status.before, Status.scalar, List.length_append, List.length_singleton]
    omega
  · cases hword with
    | plain hplain => exact h.plain_text hplain hcontent hrest hdepth hkey hcolumns htop hm
    | quoted hs hclass hquote =>
      exact h.quoted_text hclass hs hquote hcontent hrest hdepth hkey hcolumns htop

/-! ## Keys -/

theorem inLine_name {name rest : List Char} (hname : Plain.IsName name)
    (hrest : s.cursor.rest = name ++ rest) : s.inLine = s.plain := by
  obtain ⟨d, hd, halnum⟩ := hname.head
  obtain ⟨more, rfl⟩ := List.head?_eq_some_iff.1 hd
  have hhead : s.cursor.head = d := Cursor.head_cons hrest
  have hascii := Plain.toNat_of_isAlphanum halnum
  have hall : isGap d = false ∧ Style.isIndicator d = false ∧ ¬(d = '-' ∨ d = '?' ∨ d = ':') :=
    forall_ascii (P := fun d => d.isAlphanum → isGap d = false ∧ Style.isIndicator d = false
      ∧ ¬(d = '-' ∨ d = '?' ∨ d = ':')) (by decide +kernel) hascii halnum
  refine inLine_plain (by rw [hhead]; exact hall.1) (by rw [hhead]; exact hall.2.1) ?_
  rw [hhead]
  exact fun hsign => absurd hsign hall.2.2

theorem atDocument_name {c : Cursor} {name rest : List Char} (hname : Plain.IsName name)
    (hrest : c.rest = name ++ rest) : c.atDocument = false := by
  obtain ⟨d, hd, halnum⟩ := hname.head
  obtain ⟨more, rfl⟩ := List.head?_eq_some_iff.1 hd
  have hdash : d ≠ '-' := by
    rintro rfl
    exact absurd halnum (by decide)
  have hpoint : d ≠ '.' := by
    rintro rfl
    exact absurd halnum (by decide)
  rw [Cursor.atDocument, startsDocument_eq_false hrest (fun h => hdash h.2),
    startsDocument_eq_false hrest (fun h => hpoint h.2), Bool.or_self]

/-- A name is read up to where a plain scalar ends. -/
theorem plain_name {name rest : List Char} (hname : Plain.IsName name)
    (hrest : s.cursor.rest = name ++ rest) (hends : Plain.Ends s.inBrackets rest)
    (hsolid : Solid rest) {keys : List PossibleKey} {owners : List (Nat × Nat)}
    (hsave : s.saveKey = .ok { s with keys, owners }) :
    s.plain = .ok { s with
      keys, owners
      queue := s.queue ++ [⟨.scalar true (String.ofList name), s.cursor.line⟩]
      keyAllowed := false
      cursor := s.cursor.skips name.length } := by
  rw [Scanner.plain, hsave]
  simp only [Scanner.inBrackets] at hends ⊢
  rw [Plain.read_name hname hrest hends hsolid (atDocument_name hname hrest)]
  simp [Except.map, take, push]

/-- The status between a name and the colon that makes it a key. -/
def Status.name (st : Status) (name rest : List Char) : Status :=
  { st with
    kinds := st.kinds ++ [.scalar true (String.ofList name)]
    rest
    column := st.column + name.length
    keyAllowed := false
    key := .awaited st.kinds.length st.column }

variable (st) in
/-- A name is read up to its colon, which is then awaited. -/
theorem step_name {name : List Char} (hname : Plain.IsName name)
    (hshort : name.length ≤ maxKeySize) {g : Char} {more : List Char} (hg : isGap g = true)
    (hunended : .streamEnd ∉ st.kinds) (hrest : st.rest = name ++ ':' :: g :: more)
    (hallowed : st.keyAllowed = true) (hkey : st.key.Free)
    (hcolumns : ∀ top ∈ st.columns.head?, top ≤ st.column) :
    Step st (st.name name (':' :: g :: more)) := by
  obtain ⟨d, hd, halnum⟩ := hname.head
  have hne : 0 < name.length := by
    cases name with
    | nil => cases hd
    | cons => simp
  refine step_of hunended ?_ ?_ ?_ fun {out s} h => ?_
  · simp only [Status.name, hrest, List.length_append]
    omega
  · simp [Status.name]
  · simp only [Status.name, hrest, List.length_append, List.length_singleton]
    omega
  · have hcursor := h.rest.trans hrest
    obtain ⟨outer, houter, hpossible, hsave⟩ := h.saveKey hallowed hkey
    obtain ⟨hafter, hsize, hcolumn⟩ := h.behind name hrest
    have hindex := (Cursor.skips_word hcursor).2.2
    have hends : Plain.Ends s.inBrackets (':' :: g :: more) := by
      simp [Plain.Ends, Plain.word, hg]
    have hplain := plain_name hname hcursor hends (solid_cons (by decide)) hsave
    have hbegins : Begins (':' :: g :: more) := begins_cons (by decide) (by decide)
    obtain ⟨name', rfl⟩ : ∃ name', name = d :: name' := List.head?_eq_some_iff.1 hd
    refine ⟨_, h.fetchToken (by rw [hrest]; rfl) (.inr halnum)
      ((inLine_name hname hcursor).trans hplain) (.inr ?_), ?_⟩
    · rw [hafter]
      exact hbegins.uncommented 0
    · -- the place of the name is kept as that of a possible key
      have hstands : Stands out (st.name (d :: name') (':' :: g :: more)) { s with
          keys := s.keyHere :: outer
          owners := [(s.nextNumber, s.depth)]
          queue := s.queue ++ [⟨.scalar true (String.ofList (d :: name')), s.cursor.line⟩]
          keyAllowed := false
          cursor := s.cursor.skips (d :: name').length } := by
        have hnumber := h.nextNumber
        refine ⟨h.readable, h.unmarked, h.released, h.kinds_push _ _, hafter, hsize, hcolumn,
          h.columns, h.depth, rfl, ⟨s.keyHere, outer, rfl, houter, hpossible, ?_, rfl, hnumber,
            h.column, ?_, ?_, ?_, ?_⟩⟩
        · intro e he
          obtain rfl : e = (s.nextNumber, s.depth) := by simpa using he
          exact ⟨rfl, rfl⟩
        · rw [← hnumber, Scanner.nextNumber]
          exact Nat.le_add_right _ _
        · rw [hnumber]
          exact List.mem_singleton.2 rfl
        · exact (Cursor.skips_line _ _).symm
        · rw [hindex]
          exact Nat.add_le_add_left hshort _
      have hat := hstands.at_spaces (n := 0) hbegins rfl (.inr rfl)
      rwa [Status.before_eq (.inr ?_)] at hat
      intro top htop
      exact Nat.le_trans (hcolumns top htop) (Nat.le_add_right _ _)

/-- The token for a block at a column, if none is open there. -/
def opened (columns : List Nat) (column : Nat) (kind : Token.Kind) : List Token.Kind :=
  if columns.head?.all (· < column) then [kind] else []

/-- The open blocks with one at a column. -/
def nested (columns : List Nat) (column : Nat) : List Nat :=
  if columns.head?.all (· < column) then column :: columns else columns

theorem opened_length (columns : List Nat) (column : Nat) (kind : Token.Kind) :
    (opened columns column kind).length ≤ 1 := by
  unfold opened
  split <;> simp

theorem nested_length (columns : List Nat) (column : Nat) :
    (nested columns column).length ≤ columns.length + 1 := by
  unfold nested
  split <;> simp

/-- A token put before the one of a number stands there among all tokens. -/
theorem kinds_insert {front back : List Token.Kind}
    (hkinds : (out ++ s.queue).map Token.kind = front ++ back) (hreleased : s.released = out.length)
    {number : Nat} (hnumber : number = front.length) (hqueued : out.length ≤ number)
    (kind : Token.Kind) (line : Nat) :
    (out ++ (s.insert number kind line).queue).map Token.kind = front ++ kind :: back := by
  have htake : (out ++ s.queue).take number = out ++ s.queue.take (number - out.length) := by
    rw [List.take_append, List.take_of_length_le hqueued]
  have hdrop : (out ++ s.queue).drop number = s.queue.drop (number - out.length) := by
    rw [List.drop_append, List.drop_eq_nil_of_le hqueued, List.nil_append]
  have hfront : front = ((out ++ s.queue).take number).map Token.kind := by
    rw [List.map_take, hkinds, List.take_left' hnumber.symm]
  have hback : back = ((out ++ s.queue).drop number).map Token.kind := by
    rw [List.map_drop, hkinds, List.drop_left' hnumber.symm]
  rw [hfront, hback, htake, hdrop, Scanner.insert, hreleased]
  simp

/-- Where there is room, a block is opened at a column unless one is open there. Its token stands
where its number says, or at the end. -/
theorem openBlock_eq_ok {front back : List Token.Kind} {columns : List Nat} {column : Nat}
    {number : Option Nat} (hkinds : (out ++ s.queue).map Token.kind = front ++ back)
    (hreleased : s.released = out.length)
    (hnumber : number = none ∧ back = [] ∨ number = some front.length ∧ out.length ≤ front.length)
    (hbrackets : s.inBrackets = false) (hcolumns : s.columns = columns)
    (hroom : (nested columns column).length ≤ maxDepth) (kind : Token.Kind) (line : Nat) :
    ∃ queue, s.openBlock column number kind line
        = .ok { s with queue, columns := nested columns column }
      ∧ (out ++ queue).map Token.kind = front ++ opened columns column kind ++ back := by
  unfold openBlock
  rw [hbrackets, hcolumns]
  by_cases hnew : (columns.head?.all fun open_ => decide (open_ < column)) = true
  · rw [nested, if_pos hnew, List.length_cons] at hroom
    rw [if_neg (by simp [hnew]), if_neg (by omega), nested, if_pos hnew, opened, if_pos hnew]
    obtain ⟨rfl, rfl⟩ | ⟨rfl, hle⟩ := hnumber
    · refine ⟨s.queue ++ [⟨kind, line⟩], rfl, ?_⟩
      rw [← List.append_assoc, List.map_append, hkinds]
      simp
    · refine ⟨_, rfl, (kinds_insert (s := { s with columns := column :: columns }) hkinds hreleased
        rfl hle kind line).trans ?_⟩
      simp
  · refine ⟨s.queue, ?_, ?_⟩
    · rw [if_pos (by simp [hnew]), nested, if_neg hnew, ← hcolumns]
    · rw [opened, if_neg hnew, List.append_nil]
      exact hkinds

/-- The status after the colon of a key whose name is the last token. -/
def Status.value (st : Status) (front : List Token.Kind) (name : Token.Kind) (column : Nat)
    (rest : List Char) : Status :=
  { st with
    kinds := front ++ opened st.columns column .mapStart ++ [.key, name, .value]
    rest
    column := st.column + 1
    columns := nested st.columns column
    keyAllowed := false
    key := .none }

/-- The colon after a name makes it a key. -/
theorem Stands.colon (h : Stands out st s) {front : List Token.Kind} {name : Token.Kind}
    {column : Nat} (hkinds : st.kinds = front ++ [name])
    (hkey : st.key = .awaited front.length column)
    {g : Char} {more : List Char} (hrest : st.rest = ':' :: g :: more) (hg : isGap g = true)
    (hline : Uncommented (g :: more)) (hdepth : st.depth = 0)
    (hroom : (nested st.columns column).length ≤ maxDepth) (hcolumn : 0 < st.column) :
    ∃ t, s.fetchToken = .ok t ∧ Stands out (st.value front name column (g :: more)) t := by
  obtain ⟨k, outer, ht⟩ := h.tracks
  rw [hkey] at ht
  obtain ⟨hpossible, hnumber, rfl, hreleased, hmem, hkline, hindex⟩ := ht.state
  have hcursor := h.rest.trans hrest
  have hbrackets := h.inBrackets hdepth
  obtain ⟨hafter, hsize, hbehind⟩ := h.behind [':'] hrest
  have howners : s.owners.filter (·.1 != k.number) = [] := by
    rw [List.filter_eq_nil_iff]
    intro e he
    simp [(ht.owners e he).2]
  have hplace : out.length ≤ k.number := by
    rw [hnumber, ← h.released]
    exact hreleased
  have hinsert := kinds_insert (h.kinds.trans hkinds) h.released hnumber hplace .key k.line
  -- the key goes before its name, and the mapping, if it starts here, before the key
  obtain ⟨queue, hopen, hqueue⟩ := openBlock_eq_ok (s := s.insert k.number .key k.line)
    hinsert h.released (.inr ⟨congrArg some hnumber, hnumber ▸ hplace⟩) hbrackets h.columns hroom
    .mapStart k.line
  have hvalue : s.inLine = .ok { s with
      queue := queue ++ [⟨.value, s.cursor.line⟩]
      columns := nested st.columns k.column
      keys := { k with possible := false } :: outer
      owners := []
      keyAllowed := false
      cursor := s.cursor.skips 1 } := by
    have hcolon : s.inLine = s.value := by
      simp [inLine, Cursor.head_cons hcursor, Cursor.char_cons hcursor, hg]
    rw [hcolon, Scanner.value, ht.keys]
    simp only [checkKey_of_live hkline hindex, hpossible, if_true, valueOfKey, hopen, Except.map]
    rw [show (s.insert k.number .key k.line).keys = k :: outer from ht.keys,
      show (s.insert k.number .key k.line).owners.filter (·.1 != k.number) = [] from howners]
    rfl
  refine ⟨_, h.fetchToken hrest (.inl hcolumn) hvalue (.inr (hafter ▸ hline)), ?_⟩
  refine ⟨h.readable, h.unmarked, h.released, ?_, hafter, hsize, hbehind, rfl, h.depth, rfl,
    ⟨_, outer, tracks_none rfl rfl rfl ht.depth ht.outer⟩⟩
  rw [← List.append_assoc, List.map_append, hqueue]
  simp [Status.value]

theorem Status.value_length (st : Status) {front : List Token.Kind} {name : Token.Kind}
    (hkinds : st.kinds = front ++ [name]) (column : Nat) (rest : List Char) :
    (st.value front name column rest).kinds.length
      + (st.value front name column rest).columns.length
      ≤ st.kinds.length + st.columns.length + 4 := by
  have hopened := opened_length st.columns column .mapStart
  have hnested := nested_length st.columns column
  simp only [Status.value, hkinds, List.length_append, List.length_cons, List.length_nil]
  omega

theorem Status.length_le_value (st : Status) {front : List Token.Kind} {name : Token.Kind}
    (hkinds : st.kinds = front ++ [name]) (column : Nat) (rest : List Char) :
    st.kinds.length ≤ (st.value front name column rest).kinds.length := by
  simp only [Status.value, hkinds, List.length_append, List.length_cons, List.length_nil]
  omega

theorem le_of_mem_head_nested {columns : List Nat} {column top : Nat}
    (h : ∀ k ∈ columns.head?, k ≤ column) (htop : top ∈ (nested columns column).head?) :
    top ≤ column := by
  unfold nested at htop
  split at htop
  · obtain rfl : column = top := by simpa using htop
    exact Nat.le_refl _
  · exact h top htop

/-- A colon is awaited after the name of a key at a column. -/
structure Keyed (st : Status) (front : List Token.Kind) (name : Token.Kind) (column : Nat) :
    Prop where
  kinds : st.kinds = front ++ [name]
  key : st.key = .awaited front.length column
  unended : .streamEnd ∉ st.kinds
  depth : st.depth = 0
  column_lt : column < st.column
  columns : ∀ top ∈ st.columns.head?, top ≤ column
  room : (nested st.columns column).length ≤ maxDepth

/-- The status at the value of a key. -/
def Status.valueAt (st : Status) (front : List Token.Kind) (name : Token.Kind) (column : Nat)
    (place : Nat) (keyAllowed : Bool) (content : List Char) : Status :=
  { st.value front name column content with column := place, keyAllowed }

theorem Keyed.step {front : List Token.Kind} {name : Token.Kind} {column place : Nat}
    (hst : Keyed st front name column) {g : Char} {more content : List Char} {keyAllowed : Bool}
    (hrest : st.rest = ':' :: g :: more) (hg : isGap g = true) (hline : Uncommented (g :: more))
    (hshrinks : content.length ≤ (g :: more).length)
    (hnext : ∀ {out : List Token} {s : Scanner},
      Stands out (st.value front name column (g :: more)) s →
        At out (st.valueAt front name column place keyAllowed content) s) :
    Step st (st.valueAt front name column place keyAllowed content) := by
  have hvalue := st.value_length hst.kinds column (g :: more)
  have hgrows := st.length_le_value hst.kinds column (g :: more)
  have hshorter : content.length + 1 ≤ st.rest.length := by
    rw [hrest, List.length_cons]
    omega
  refine step_of hst.unended hshorter hgrows ?_ fun h => ?_
  · simp only [Status.valueAt, Status.value] at hvalue ⊢
    omega
  · obtain ⟨t, hfetch, ht⟩ := h.colon hst.kinds hst.key hrest hg hline hst.depth hst.room
      (Nat.zero_lt_of_lt hst.column_lt)
    exact ⟨t, hfetch, hnext ht⟩

/-- **Keys.** After the colon of a key, its value may stand on the same line, -/
theorem Keyed.step_inline {front : List Token.Kind} {name : Token.Kind} {column : Nat}
    (hst : Keyed st front name column) {content : List Char} (hcontent : Begins content)
    (hrest : st.rest = ':' :: ' ' :: content) :
    Step st (st.valueAt front name column (st.column + 2) false content) := by
  refine hst.step hrest (by decide) (hcontent.uncommented 1) (Nat.le_succ _) fun h => ?_
  have hat := h.at_spaces (n := 1) hcontent rfl (.inl trivial)
  rwa [Status.before_eq (.inr ?_)] at hat
  intro top htop
  have hle := le_of_mem_head_nested hst.columns htop
  have hlt := hst.column_lt
  change top ≤ st.column + 1 + 1
  omega

/-- or on the next one, where it is indented more. -/
theorem Keyed.step_below {front : List Token.Kind} {name : Token.Kind} {column place : Nat}
    (hst : Keyed st front name column) {content : List Char} (hcontent : Begins content)
    (hplace : column < place)
    (hrest : st.rest = ':' :: '\n' :: (List.replicate place ' ' ++ content)) :
    Step st (st.valueAt front name column place true content) := by
  refine hst.step hrest (by decide) (uncommented_newline _) ?_ fun h => ?_
  · rw [List.length_cons, List.length_append]
    omega
  · have hat := h.at_newline hcontent hst.depth rfl trivial
    rwa [Status.before_eq (.inr ?_)] at hat
    intro top htop
    have hle := le_of_mem_head_nested hst.columns htop
    omega

/-! ## Items -/

/-- The status after the dash of an item. -/
def Status.item (st : Status) (content : List Char) : Status :=
  { st with
    kinds := st.kinds ++ opened st.columns st.column .listStart ++ [.dash]
    rest := content
    column := st.column + 2
    columns := nested st.columns st.column
    keyAllowed := true
    key := .none }

variable (st) in
/-- **Items.** What follows a dash stands two columns to its right. -/
theorem step_dash {content : List Char} (hcontent : Begins content)
    (hrest : st.rest = '-' :: ' ' :: content) (hdepth : st.depth = 0)
    (hallowed : st.keyAllowed = true) (hkey : st.key.Free)
    (hcolumn : 0 < st.column) (hcolumns : ∀ top ∈ st.columns.head?, top ≤ st.column)
    (hroom : (nested st.columns st.column).length ≤ maxDepth) (hunended : .streamEnd ∉ st.kinds) :
    Step st (st.item content) := by
  have hopened := opened_length st.columns st.column .listStart
  have hnested := nested_length st.columns st.column
  refine step_of hunended ?_ ?_ ?_ fun {out s} h => ?_
  · simp only [Status.item, hrest, List.length_cons]
    omega
  · simp [Status.item]
  · simp only [Status.item, hrest, List.length_append, List.length_cons, List.length_nil]
    omega
  · have hcursor := h.rest.trans hrest
    have hbrackets := h.inBrackets hdepth
    obtain ⟨hafter, hsize, hbehind⟩ := h.behind ['-'] hrest
    obtain ⟨queue, hopen, hqueue⟩ := openBlock_eq_ok
      (h.kinds.trans (List.append_nil _).symm) h.released (.inl ⟨rfl, rfl⟩) hbrackets h.columns hroom
      .listStart s.cursor.line
    rw [List.append_nil] at hqueue
    obtain ⟨k, outer, ht⟩ := h.tracks
    obtain ⟨k', hk', hremove⟩ := Tracks.removeKey (s := { s with
      queue, columns := nested st.columns st.column }) (ht.of_eq hkey rfl rfl rfl) hkey
    have hdash : s.inLine = .ok { s with
        queue := queue ++ [⟨.dash, s.cursor.line⟩]
        columns := nested st.columns st.column
        keys := k' :: outer
        owners := []
        keyAllowed := true
        cursor := s.cursor.skips 1 } := by
      have hinLine : s.inLine = s.dash := by
        simp [inLine, Cursor.head_cons hcursor, Cursor.char_cons hcursor, isGap, isBlank]
      rw [hinLine, Scanner.dash, if_neg (by simp [h.keyAllowed, hallowed]), h.column, hopen]
      simp only [hremove]
      rfl
    refine ⟨_, h.fetchToken hrest (.inl hcolumn) hdash (.inl (by simp [endsWithDash])), ?_⟩
    have hstands : Stands out { st.item content with
        rest := ' ' :: content, column := st.column + 1 } { s with
        queue := queue ++ [⟨.dash, s.cursor.line⟩]
        columns := nested st.columns st.column
        keys := k' :: outer
        owners := []
        keyAllowed := true
        cursor := s.cursor.skips 1 } := by
      refine ⟨h.readable, h.unmarked, h.released, ?_, hafter, hsize, hbehind, rfl, h.depth, rfl,
        ⟨_, outer, tracks_none rfl rfl hk' ht.depth ht.outer⟩⟩
      rw [← List.append_assoc, List.map_append, hqueue]
      rfl
    have hat := hstands.at_spaces (n := 1) hcontent rfl (.inl trivial)
    rwa [Status.before_eq (.inr ?_)] at hat
    intro top htop
    have := le_of_mem_head_nested hcolumns htop
    change top ≤ st.column + 1 + 1
    omega

/-! ## Lists in brackets -/

/-- The status after a sign or name of a list in brackets. -/
def Status.bracketed (st : Status) (kind : Token.Kind) (width : Nat) (rest : List Char)
    (keyAllowed : Bool) (key : KeyState) : Status :=
  { st with
    kinds := st.kinds ++ [kind], rest, column := st.column + width, depth := 1, keyAllowed, key }

theorem Status.bracketed_bounds {st : Status} {kind : Token.Kind} {width : Nat} {rest : List Char}
    {keyAllowed : Bool} {key : KeyState} (hrest : rest.length < st.rest.length) :
    (st.bracketed kind width rest keyAllowed key).kinds.length
      + (st.bracketed kind width rest keyAllowed key).columns.length
      + 4 * (st.bracketed kind width rest keyAllowed key).rest.length
        ≤ st.kinds.length + st.columns.length + 4 * st.rest.length := by
  simp only [Status.bracketed, List.length_append, List.length_singleton]
  omega

variable (st) in
/-- **Opening brackets.** They start a list where no key may start. -/
theorem step_bracketOpen {content : List Char} (hcontent : Begins content)
    (hrest : st.rest = '[' :: content) (hdepth : st.depth = 0) (hallowed : st.keyAllowed = false)
    (hkey : st.key = .none) (hcolumn : 0 < st.column) (hunended : .streamEnd ∉ st.kinds) :
    Step st (st.bracketed .bracketOpen 1 content true .none) := by
  refine step_of hunended ?_ ?_ (Status.bracketed_bounds ?_) fun {out s} h => ?_
  · simp [Status.bracketed, hrest]
  · simp [Status.bracketed]
  · simp [hrest]
  · have hcursor := h.rest.trans hrest
    obtain ⟨hafter, hsize, hbehind⟩ := h.behind ['['] hrest
    obtain ⟨k, outer, ht⟩ := h.tracks
    rw [hkey] at ht
    have hopen : s.inLine = .ok { s with
        queue := s.queue ++ [⟨.bracketOpen, s.cursor.line⟩]
        depth := s.depth + 1
        keys := { number := s.nextNumber } :: s.keys
        keyAllowed := true
        cursor := s.cursor.skips 1 } := by
      have hinLine : s.inLine = s.openBracket .bracketOpen := by
        simp [inLine, Cursor.head_cons hcursor]
      have hsave : s.saveKey = .ok s := by
        rw [Scanner.saveKey, if_pos (by simp [h.keyAllowed, hallowed])]
      rw [hinLine, openBracket, hsave]
      simp only [h.depth, hdepth]
      rfl
    refine ⟨_, h.fetchToken hrest (.inl hcolumn) hopen
      (.inr (hafter ▸ hcontent.uncommented 0)), ?_⟩
    have hstands : Stands out (st.bracketed .bracketOpen 1 content true .none) { s with
        queue := s.queue ++ [⟨.bracketOpen, s.cursor.line⟩]
        depth := s.depth + 1
        keys := { number := s.nextNumber } :: s.keys
        keyAllowed := true
        cursor := s.cursor.skips 1 } := by
      refine ⟨h.readable, h.unmarked, h.released, h.kinds_push _ _, hafter, hsize, hbehind,
        h.columns, ?_, rfl, ⟨_, s.keys, rfl, ?_, ?_, ?_, rfl⟩⟩
      · rw [Status.bracketed, h.depth, hdepth]
      · rw [ht.keys, List.length_cons, ht.depth]
      · rw [ht.keys]
        intro o ho
        obtain rfl | ho := List.mem_cons.1 ho
        · exact ht.state
        · exact ht.outer o ho
      · rw [ht.owners_eq_nil ht.state]
        exact nofun
    have hat := hstands.at_spaces (n := 0) hcontent rfl (.inl trivial)
    rwa [Status.before_eq (.inl Nat.zero_lt_one)] at hat

variable (st) in
/-- **Names in brackets** are read up to the next comma or bracket. -/
theorem step_bracketName {name : List Char} (hname : Plain.IsName name) {d : Char}
    (hd : d = ',' ∨ d = ']') {more : List Char} (hrest : st.rest = name ++ d :: more)
    (hdepth : st.depth = 1) (hkey : st.key.Free)
    (hunended : .streamEnd ∉ st.kinds) :
    Step st (st.bracketed (.scalar true (String.ofList name)) name.length (d :: more) false
      .optional) := by
  obtain ⟨e, he, halnum⟩ := hname.head
  obtain ⟨name', rfl⟩ := List.head?_eq_some_iff.1 he
  have hshorter : (d :: more).length < st.rest.length := by
    simp only [hrest, List.length_append, List.length_cons]
    omega
  refine step_of hunended hshorter ?_ (Status.bracketed_bounds hshorter) fun {out s} h => ?_
  · simp [Status.bracketed]
  · have hcursor := h.rest.trans hrest
    have hbrackets : s.inBrackets = true := by simp [Scanner.inBrackets, h.depth, hdepth]
    obtain ⟨hafter, hsize, hbehind⟩ := h.behind (e :: name') hrest
    obtain ⟨keys, owners, k, outer, hsave, ht⟩ := h.saveKey_optional hkey
      (fun _ => .inl (by omega))
    have hsolid : isGap d = false ∧ d ≠ '#' ∧ Plain.isSeparator d = true := by
      obtain rfl | rfl := hd <;> decide
    have hends : Plain.Ends s.inBrackets (d :: more) := by
      simp [Plain.Ends, Plain.word, hbrackets, hsolid.2.2]
    have hplain := plain_name hname hcursor hends (solid_cons hsolid.1) hsave
    have hbegins : Begins (d :: more) := begins_cons hsolid.1 hsolid.2.1
    refine ⟨_, h.fetchToken (by rw [hrest]; rfl) (.inr halnum)
      ((inLine_name hname hcursor).trans hplain)
      (.inr (hafter ▸ hbegins.uncommented 0)), ?_⟩
    have hstands : Stands out (st.bracketed (.scalar true (String.ofList (e :: name')))
        (e :: name').length (d :: more) false .optional) { s with
        keys, owners
        queue := s.queue ++ [⟨.scalar true (String.ofList (e :: name')), s.cursor.line⟩]
        keyAllowed := false
        cursor := s.cursor.skips (e :: name').length } := by
      refine ⟨h.readable, h.unmarked, h.released, h.kinds_push _ _, hafter, hsize, hbehind,
        h.columns, ?_, rfl, ⟨k, outer, ht.of_eq trivial rfl rfl rfl⟩⟩
      rw [Status.bracketed, h.depth, hdepth]
    have hat := hstands.at_spaces (n := 0) hbegins rfl (.inl trivial)
    rwa [Status.before_eq (.inl Nat.zero_lt_one)] at hat

variable (st) in
/-- **Commas in brackets** give up the last possible key. -/
theorem step_comma {content : List Char} (hcontent : Begins content)
    (hrest : st.rest = ',' :: ' ' :: content) (hdepth : st.depth = 1)
    (hkey : st.key.Free) (hcolumn : 0 < st.column)
    (hunended : .streamEnd ∉ st.kinds) :
    Step st (st.bracketed .comma 2 content true .none) := by
  refine step_of hunended ?_ ?_ (Status.bracketed_bounds ?_) fun {out s} h => ?_
  · simp only [Status.bracketed, hrest, List.length_cons]
    omega
  · simp [Status.bracketed]
  · simp only [hrest, List.length_cons]
    omega
  · have hcursor := h.rest.trans hrest
    obtain ⟨hafter, hsize, hbehind⟩ := h.behind [','] hrest
    obtain ⟨k, outer, ht⟩ := h.tracks
    obtain ⟨k', hk', hremove⟩ := ht.removeKey hkey
    have hcomma : s.inLine = .ok { s with
        queue := s.queue ++ [⟨.comma, s.cursor.line⟩]
        keys := k' :: outer
        owners := []
        keyAllowed := true
        cursor := s.cursor.skips 1 } := by
      have hinLine : s.inLine = s.comma := by
        simp [inLine, Cursor.head_cons hcursor]
      rw [hinLine, Scanner.comma, hremove]
      rfl
    refine ⟨_, h.fetchToken hrest (.inl hcolumn) hcomma
      (.inr (hafter ▸ hcontent.uncommented 1)), ?_⟩
    have hstands : Stands out (st.bracketed .comma 1 (' ' :: content) true .none) { s with
        queue := s.queue ++ [⟨.comma, s.cursor.line⟩]
        keys := k' :: outer
        owners := []
        keyAllowed := true
        cursor := s.cursor.skips 1 } := by
      refine ⟨h.readable, h.unmarked, h.released, h.kinds_push _ _, hafter, hsize, hbehind,
        h.columns, ?_, rfl, ⟨_, outer, tracks_none rfl rfl hk' ht.depth ht.outer⟩⟩
      rw [Status.bracketed, h.depth, hdepth]
    have hat := hstands.at_spaces (n := 1) hcontent rfl (.inl trivial)
    rwa [Status.before_eq (.inl Nat.zero_lt_one)] at hat

/-- The status after a list in brackets. -/
def Status.closed (st : Status) : Status :=
  { st with kinds := st.kinds ++ [.bracketClose], depth := 0, key := .optional }

variable (st) in
/-- **Closing brackets** end a list and its line. -/
theorem step_bracketClose {m : Nat} {content : List Char} {kinds : List Token.Kind}
    (hcontent : Begins content)
    (hrest : st.rest = ']' :: '\n' :: (List.replicate m ' ' ++ content)) (hdepth : st.depth = 1)
    (hkey : st.key.Free) (hcolumn : 0 < st.column)
    (hunended : .streamEnd ∉ st.kinds) (hkinds : kinds = st.kinds ++ [.bracketClose]) :
    Step st (.below kinds st.columns m content) := by
  have hbelow : .below kinds st.columns m content = st.closed.before m true content := by
    rw [hkinds]
    rfl
  rw [hbelow]
  have hlength := st.closed.before_length m true content
  have hshorter : content.length + 1 ≤ st.rest.length := by
    simp only [hrest, List.length_append, List.length_cons]
    omega
  refine step_of hunended hshorter ?_ ?_ fun {out s} h => ?_
  · simp [Status.before, Status.closed]
  · rw [hlength]
    simp only [Status.before, Status.closed, List.length_append, List.length_singleton]
    omega
  · have hcursor := h.rest.trans hrest
    obtain ⟨hafter, hsize, hbehind⟩ := h.behind [']'] hrest
    obtain ⟨k, outer, ht⟩ := h.tracks
    obtain ⟨k', hk', hremove⟩ := ht.removeKey hkey
    -- what was possible outside of the brackets counts again
    obtain ⟨o, rfl⟩ : ∃ o, outer = [o] :=
      List.length_eq_one_iff.1 (by rw [ht.depth, h.depth, hdepth])
    have hclose : s.inLine = .ok { s with
        queue := s.queue ++ [⟨.bracketClose, s.cursor.line⟩]
        depth := 0
        keys := [o]
        owners := []
        keyAllowed := false
        cursor := s.cursor.skips 1 } := by
      have hinLine : s.inLine = s.closeBracket .bracketClose := by
        simp [inLine, Cursor.head_cons hcursor]
      rw [hinLine, closeBracket, hremove]
      simp [Except.map, sign, push, h.depth, hdepth]
    refine ⟨_, h.fetchToken hrest (.inl hcolumn) hclose
      (.inr (hafter ▸ uncommented_newline _)), ?_⟩
    have hstands : Stands out { st.closed with
        rest := '\n' :: (List.replicate m ' ' ++ content)
        column := st.column + 1
        keyAllowed := false } { s with
        queue := s.queue ++ [⟨.bracketClose, s.cursor.line⟩]
        depth := 0
        keys := [o]
        owners := []
        keyAllowed := false
        cursor := s.cursor.skips 1 } :=
      ⟨h.readable, h.unmarked, h.released, h.kinds_push _ _, hafter, hsize, hbehind, h.columns,
        rfl, rfl,
        ⟨o, [], (tracks_none rfl rfl (ht.outer o (by simp)) rfl (by simp)).optional trivial⟩⟩
    exact hstands.at_newline hcontent rfl rfl trivial

end

end RulePlan.Yaml.Scanner
