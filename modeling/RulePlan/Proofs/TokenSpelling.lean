import RulePlan.Proofs.ElementParsing

/-!
# RulePlan.Proofs.TokenSpelling — spelled tokens scan back to themselves

A token read from a text keeps its spelling apart from its place, so it can be written down again.
Whether it is then read as the same token depends on what follows: `<` before `=` is another
operator, and a name before a letter a longer name. A space, a parenthesis, a comma or a dot changes
no token in front of it (`Lexical`), and every token that a scan produces is of this kind. The
spelling of an expression puts a space wherever none of these characters stands, after an opening
parenthesis aside, which ends with itself; it therefore scans to the tokens it was made of. Written
text is ASCII, on which bytes and characters are the same.
-/

namespace RulePlan

/-! ## ASCII text -/

namespace Text

theorem toList_loop_byteArray (bs : ByteArray) (i : Nat) (r : List UInt8) :
    ByteArray.toList.loop bs i r = r.reverse ++ bs.data.toList.drop i := by
  fun_induction ByteArray.toList.loop bs i r with
  | case1 i r hlt ih =>
    have hi : i < bs.data.toList.length := by simpa using hlt
    have hget : bs.get! i = bs.data.toList[i] := by
      rw [Array.getElem_toList]
      exact getElem!_pos bs.data i hlt
    rw [ih, List.drop_eq_getElem_cons hi, hget]
    simp
  | case2 i r hge =>
    have hi : bs.data.toList.length ≤ i := by simpa using hge
    rw [List.drop_eq_nil_of_le hi, List.append_nil]

theorem map_ofByte_utf8EncodeChar {c : Char} (h : c.toNat < 128) :
    (String.utf8EncodeChar c).map ofByte = [c] := by
  have hencode : String.utf8EncodeChar c = [UInt8.ofNat c.toNat] := by
    unfold String.utf8EncodeChar
    exact if_pos (Nat.le_of_lt_succ h)
  have hbyte : (UInt8.ofNat c.toNat).toNat = c.toNat := by
    rw [UInt8.toNat_ofNat']
    omega
  rw [hencode, List.map_singleton, ofByte, hbyte, Char.ofNat_toNat]

theorem toList_toUTF8 (s : String) : s.toUTF8.toList = s.toList.flatMap String.utf8EncodeChar := by
  have hdata : s.toUTF8 = (s.toList.flatMap String.utf8EncodeChar).toByteArray := by
    conv_lhs => rw [← String.ofList_toList (s := s)]
    rfl
  rw [ByteArray.toList, toList_loop_byteArray, hdata, List.data_toByteArray]
  simp

/-- The bytes of an ASCII text are its characters. -/
theorem bytes_of_ascii {s : String} (h : ∀ c ∈ s.toList, c.toNat < 128) : bytes s = s.toList := by
  rw [bytes, toList_toUTF8]
  generalize s.toList = cs at h
  induction cs with
  | nil => rfl
  | cons c cs ih =>
    rw [List.flatMap_cons, List.map_append, map_ofByte_utf8EncodeChar (h c List.mem_cons_self),
      ih fun d hd => h d (List.mem_cons_of_mem c hd), List.singleton_append]

/-- Text between two characters that are not blank has nothing to trim. -/
theorem trim_eq {s : String} {front back : Char} (hfront : s.toList.head? = some front)
    (hback : s.toList.getLast? = some back) (hf : isBlank front = false)
    (hb : isBlank back = false) : trim s = s := by
  have hleft : trimLeft s.toList = s.toList := by
    obtain ⟨cs, hcs⟩ := List.head?_eq_some_iff.1 hfront
    rw [hcs, trimLeft, List.dropWhile_cons_of_neg (by simp [hf])]
  have hright : trimRight s.toList = s.toList := by
    obtain ⟨cs, hcs⟩ := List.getLast?_eq_some_iff.1 hback
    rw [hcs, trimRight, List.reverse_concat, List.dropWhile_cons_of_neg (by simp [hb])]
    simp
  rw [trim, hleft, hright, String.ofList_toList]

end Text

namespace Token

open Grammar

/-! ## Tokens before a delimiter -/

/-- Characters that end every token in front of them. -/
def delimiters : List Char := [' ', '(', ')', ',', '.']

/-- A text that is empty or starts with a delimiter. -/
def Delimited (rest : List Char) : Prop := ∀ c ∈ rest.head?, c ∈ delimiters

/-- A token whose spelling is read as that token, and no further, before a delimiter. -/
def Lexical (t : Token) : Prop :=
  ∀ rest, Delimited rest → munch (t.text.toList ++ rest) = some (t.kind, t.text.toList, rest)

/-- The operators that an equals sign makes longer. -/
def growing : List (List Char) := [['='], ['<'], ['>'], ['!']]

/-- The next character would make a spelling longer: it goes on with a name, with a number, or with
an operator. -/
def Continues (spelling : List Char) (next : Char) : Prop :=
  (∃ c ∈ spelling.head?, isNameStart c = true ∧ isNamePart next = true)
    ∨ (∃ c ∈ spelling.head?, isDigit c = true ∧ isDigit next = true)
    ∨ spelling ∈ growing ∧ next = '='

/-- What follows a spelling, if anything does, would not make it longer. -/
def EndsBefore (spelling rest : List Char) : Prop := ∀ c ∈ rest.head?, ¬Continues spelling c

/-- A name: a letter or an underscore, then letters, underscores and digits. -/
def IsName (cs : List Char) : Prop :=
  ∃ c word, cs = c :: word ∧ isNameStart c = true ∧ ∀ d ∈ word, isNamePart d = true

theorem delimited_cons {c : Char} (h : c ∈ delimiters) (rest : List Char) :
    Delimited (c :: rest) := by
  simpa [Delimited] using h

theorem isDigit_iff {c : Char} : isDigit c = true ↔ 48 ≤ c.toNat ∧ c.toNat ≤ 57 := by
  simp only [isDigit, Bool.and_eq_true, decide_eq_true_eq]
  rfl

theorem isNameStart_iff {c : Char} :
    isNameStart c = true ↔ c.toNat = 95 ∨ (97 ≤ c.toNat ∧ c.toNat ≤ 122)
      ∨ (65 ≤ c.toNat ∧ c.toNat ≤ 90) := by
  have hunderscore : c = '_' ↔ c.toNat = 95 := by
    rw [← Char.toNat_inj]
    rfl
  simp only [isNameStart, Bool.or_eq_true, Bool.and_eq_true, decide_eq_true_eq, beq_iff_eq,
    hunderscore, or_assoc]
  rfl

theorem isNamePart_of_isDigit {c : Char} (h : isDigit c = true) : isNamePart c = true := by
  rw [isNamePart, h, Bool.or_true]

theorem isNamePart_of_isNameStart {c : Char} (h : isNameStart c = true) : isNamePart c = true := by
  rw [isNamePart, h, Bool.true_or]

theorem IsName.forall {cs : List Char} (h : IsName cs) : ∀ c ∈ cs, isNamePart c = true := by
  obtain ⟨c, word, rfl, hc, hword⟩ := h
  exact List.forall_mem_cons.2 ⟨isNamePart_of_isNameStart hc, hword⟩

theorem not_isDigit_of_isNameStart {c : Char} (h : isNameStart c = true) : ¬isDigit c = true := by
  have hc := isNameStart_iff.1 h
  rw [isDigit_iff]
  omega

theorem Delimited.not_isNamePart {rest : List Char} (h : Delimited rest) :
    ∀ c ∈ rest.head?, isNamePart c = false := by
  have hall : delimiters.all (fun c => !isNamePart c) = true := by decide
  exact fun c hc => by simpa using List.all_eq_true.1 hall c (h c hc)

/-- A delimiter ends whatever is spelled in front of it. -/
theorem Delimited.endsBefore {rest : List Char} (h : Delimited rest) (spelling : List Char) :
    EndsBefore spelling rest := by
  intro c hc hcontinues
  have hpart := h.not_isNamePart c hc
  rcases hcontinues with ⟨d, -, -, hname⟩ | ⟨d, -, -, hdigit⟩ | ⟨-, rfl⟩
  · rw [hpart] at hname
    cases hname
  · rw [isNamePart_of_isDigit hdigit] at hpart
    cases hpart
  · exact absurd (h '=' hc) (by decide)

/-- A run of characters of a class ends before a character outside it. -/
theorem takeWhile_append_of_head {p : Char → Bool} {word rest : List Char}
    (hword : ∀ c ∈ word, p c = true) (hrest : ∀ c ∈ rest.head?, p c = false) :
    (word ++ rest).takeWhile p = word ∧ (word ++ rest).dropWhile p = rest := by
  have hnone : rest.takeWhile p = [] ∧ rest.dropWhile p = rest := by
    cases rest with
    | nil => exact ⟨rfl, rfl⟩
    | cons c rest =>
      have hc : ¬p c = true := by simp [hrest c rfl]
      exact ⟨List.takeWhile_cons_of_neg hc, List.dropWhile_cons_of_neg hc⟩
  rw [List.takeWhile_append_of_pos hword, List.dropWhile_append_of_pos hword, hnone.1, hnone.2,
    List.append_nil]
  exact ⟨rfl, rfl⟩

/-- No fixed spelling starts with a character of a name or a number. -/
theorem munch_eq_munchWord {c : Char} (h : isNamePart c = true) (cs : List Char) :
    munch (c :: cs) = munchWord (c :: cs) := by
  have hstart : fixedSpellings.all (fun e => e.1.head?.all fun d => !isNamePart d) = true := by
    decide
  have hnone : fixedSpellings.find? (fun e => e.1.isPrefixOf (c :: cs)) = none := by
    refine List.find?_eq_none.2 fun e he hfront => ?_
    obtain ⟨d, spelling, hspelling⟩ :=
      List.exists_cons_of_ne_nil (fixedSpellings_ne_nil e he)
    rw [hspelling, List.isPrefixOf_cons_cons, Bool.and_eq_true, beq_iff_eq] at hfront
    have hd := List.all_eq_true.1 hstart e he
    simp [hspelling, hfront.1, h] at hd
  rw [munch, hnone]

theorem munch_digits {ds rest : List Char} (hne : ds ≠ []) (hds : ∀ c ∈ ds, isDigit c = true)
    (hrest : EndsBefore ds rest) : munch (ds ++ rest) = some (.int, ds, rest) := by
  obtain ⟨c, ds, rfl⟩ := List.exists_cons_of_ne_nil hne
  have hc := hds c List.mem_cons_self
  have hnext : ∀ d ∈ rest.head?, isDigit d = false := fun d hd =>
    Bool.eq_false_iff.2 fun hdigit => hrest d hd (.inr (.inl ⟨c, rfl, hc, hdigit⟩))
  obtain ⟨htake, hdrop⟩ := takeWhile_append_of_head
    (fun d hd => hds d (List.mem_cons_of_mem c hd)) hnext
  rw [List.cons_append, munch_eq_munchWord (isNamePart_of_isDigit hc), munchWord, if_pos hc, htake,
    hdrop]

theorem munch_word {c : Char} {word rest : List Char} (hc : isNameStart c = true)
    (hword : ∀ d ∈ word, isNamePart d = true) (hrest : EndsBefore (c :: word) rest) :
    munch (c :: word ++ rest) = some (wordKind (c :: word), c :: word, rest) := by
  have hnext : ∀ d ∈ rest.head?, isNamePart d = false := fun d hd =>
    Bool.eq_false_iff.2 fun hname => hrest d hd (.inl ⟨c, rfl, hc, hname⟩)
  obtain ⟨htake, hdrop⟩ := takeWhile_append_of_head hword hnext
  rw [List.cons_append, munch_eq_munchWord (isNamePart_of_isNameStart hc), munchWord,
    if_neg (not_isDigit_of_isNameStart hc), if_pos hc, htake, hdrop]

theorem munch_not {rest : List Char} (h : EndsBefore ['n', 'o', 't'] rest) :
    munch (['n', 'o', 't'] ++ rest) = some (.not, ['n', 'o', 't'], rest) :=
  munch_word rfl (List.all_eq_true.1 rfl) h

/-- A fixed spelling is read as it stands, unless it is the front of a longer one. -/
theorem munch_fixed {rest : List Char} {e : List Char × Kind} (he : e ∈ fixedSpellings)
    (h : EndsBefore e.1 rest) : munch (e.1 ++ rest) = some (e.2, e.1, rest) := by
  cases rest with
  | nil =>
    have hend : ∀ e ∈ fixedSpellings, munch (e.1 ++ []) = some (e.2, e.1, []) := by decide
    exact hend e he
  | cons c rest =>
    have hnext : e.1 ∈ growing → '=' ≠ c := fun hgrows hc =>
      h c rfl (.inr (.inr ⟨hgrows, hc.symm⟩))
    clear h
    simp only [fixedSpellings, List.mem_cons, List.not_mem_nil, or_false] at he
    -- the text after a spelling is looked at only for the equals sign that would go on with it
    casesm* _ ∨ _ <;> subst he <;>
      simp_all [munch, fixedSpellings, growing, List.isPrefixOf]

/-! ## Tokens of a scan -/

/-- What is read at the front of a text: a fixed spelling, a number or a word. -/
theorem munch_cases {cs spelling rest : List Char} {k : Kind}
    (h : munch cs = some (k, spelling, rest)) :
    (spelling, k) ∈ fixedSpellings
      ∨ (k = .int ∧ spelling ≠ [] ∧ ∀ c ∈ spelling, isDigit c = true)
      ∨ ∃ c word, spelling = c :: word ∧ k = wordKind spelling ∧ isNameStart c = true
        ∧ ∀ d ∈ word, isNamePart d = true := by
  unfold munch at h
  split at h
  · next s kind hfind =>
    simp only [Option.some.injEq, Prod.mk.injEq] at h
    obtain ⟨rfl, rfl, -⟩ := h
    exact .inl (List.mem_of_find?_eq_some hfind)
  · cases cs with
    | nil => cases h
    | cons c cs =>
      rw [munchWord] at h
      split at h
      · next hdigit =>
        simp only [Option.some.injEq, Prod.mk.injEq] at h
        obtain ⟨rfl, rfl, -⟩ := h
        refine .inr (.inl ⟨rfl, List.cons_ne_nil _ _, fun d hd => ?_⟩)
        rcases List.mem_cons.1 hd with rfl | hd
        · exact hdigit
        · exact List.all_eq_true.1 List.all_takeWhile d hd
      · split at h
        · next hstart =>
          simp only [Option.some.injEq, Prod.mk.injEq] at h
          obtain ⟨rfl, rfl, -⟩ := h
          exact .inr (.inr ⟨c, _, rfl, rfl, hstart, List.all_eq_true.1 List.all_takeWhile⟩)
        · cases h

theorem toNat_of_isNamePart {c : Char} (h : isNamePart c = true) :
    48 ≤ c.toNat ∧ c.toNat < 128 := by
  rw [isNamePart, Bool.or_eq_true, isNameStart_iff, isDigit_iff] at h
  omega

theorem not_isBlank_of_isNamePart {c : Char} (h : isNamePart c = true) :
    Text.isBlank c = false := by
  obtain ⟨hlow, hhigh⟩ := toNat_of_isNamePart h
  simp only [Text.isBlank, Bool.or_eq_false_iff, Bool.and_eq_false_iff, decide_eq_false_iff_not,
    beq_eq_false_iff_ne]
  omega

/-- A spelling is ASCII without blanks. -/
theorem plain_of_munch {cs spelling rest : List Char} {k : Kind}
    (h : munch cs = some (k, spelling, rest)) :
    ∀ c ∈ spelling, c.toNat < 128 ∧ Text.isBlank c = false := by
  have hname : ∀ {c : Char}, isNamePart c = true → c.toNat < 128 ∧ Text.isBlank c = false :=
    fun hc => ⟨(toNat_of_isNamePart hc).2, not_isBlank_of_isNamePart hc⟩
  rcases munch_cases h with hmem | ⟨-, -, hdigits⟩ | ⟨d, word, rfl, -, hd, hword⟩
  · have hfixed : fixedSpellings.all
        (fun e => e.1.all fun c => c.toNat < 128 && !Text.isBlank c) = true := by decide
    intro c hc
    simpa using List.all_eq_true.1 (List.all_eq_true.1 hfixed _ hmem) c hc
  · exact fun c hc => hname (isNamePart_of_isDigit (hdigits c hc))
  · intro c hc
    rcases List.mem_cons.1 hc with rfl | hc
    · exact hname (isNamePart_of_isNameStart hd)
    · exact hname (hword c hc)

/-- A token is spelled as it was read, but for negation. -/
theorem text_of_munch {cs spelling rest : List Char} {k : Kind}
    (h : munch cs = some (k, spelling, rest)) (hk : k ≠ .not) (line col : Int) :
    (Token.mk k (valueOf k spelling) line col).text = String.ofList spelling := by
  rcases munch_cases h with hmem | ⟨rfl, -⟩ | ⟨d, word, rfl, rfl, -⟩
  · have hfixed : ∀ e ∈ fixedSpellings, e.2 ≠ .not →
        (Token.mk e.2 (valueOf e.2 e.1) 0 0).text = String.ofList e.1 := by decide
    exact hfixed _ hmem hk
  · rfl
  · unfold wordKind at hk ⊢
    split at hk
    · exact absurd rfl hk
    · next hword => rw [if_neg hword]; rfl

theorem lexical_of_munch {cs spelling rest : List Char} {k : Kind}
    (h : munch cs = some (k, spelling, rest)) (line col : Int) :
    Lexical ⟨k, valueOf k spelling, line, col⟩ := by
  intro after hafter
  by_cases hk : k = .not
  · -- either spelling of negation is written as the word
    subst hk
    have htext : (Token.mk .not (valueOf .not spelling) line col).text.toList
        = ['n', 'o', 't'] := by
      change "not".toList = ['n', 'o', 't']
      rfl
    rw [htext]
    exact munch_not (hafter.endsBefore _)
  · rw [text_of_munch h hk, String.toList_ofList]
    rcases munch_cases h with hmem | ⟨rfl, hne, hdigits⟩ | ⟨d, word, rfl, rfl, hd, hword⟩
    · exact munch_fixed hmem (hafter.endsBefore _)
    · exact munch_digits hne hdigits (hafter.endsBefore _)
    · exact munch_word hd hword (hafter.endsBefore _)

theorem lexical_unplaced {t : Token} (h : Lexical t) : Lexical t.unplaced := by
  unfold Lexical
  rw [text_unplaced, kind_unplaced]
  exact h

/-- The tokens of a text are lexical, the end of input aside. -/
theorem lexical_of_tokenize {text : String} {line : Int} {tokens : List Token}
    (h : tokenize text line = .ok tokens) : ∀ t ∈ tokens.dropLast.map unplaced, Lexical t := by
  obtain ⟨-, rfl⟩ := tokenizeBytes_eq_ok_iff.1 h
  rw [List.dropLast_concat]
  intro t ht
  obtain ⟨u, hu, rfl⟩ := List.mem_map.1 ht
  exact lexical_unplaced
    (forall_mem_scan (fun hmunch col => lexical_of_munch hmunch _ col) 1 _ u hu)

/-! ## Texts that scan to given tokens -/

/-- An ASCII text that scans without a fault to tokens, their places aside. -/
structure Scans (cs : List Char) (ts : List Token) : Prop where
  ascii : ∀ c ∈ cs, c.toNat < 128
  fault : ∀ line col, (scan line col cs).fault = none
  tokens : ∀ line col, (scan line col cs).tokens.map unplaced = ts

theorem scan_nil (line : Int) (col : Nat) : scan line col [] = ⟨[], [], col, none⟩ := by
  unfold scan
  rfl

theorem scan_blank {c : Char} (h : Text.isBlank c = true) (line : Int) (col : Nat)
    (cs : List Char) : scan line col (c :: cs) = scan line (col + 1) cs := by
  conv_lhs => unfold scan
  exact if_pos h

theorem scan_space (line : Int) (col : Nat) (cs : List Char) :
    scan line col (' ' :: cs) = scan line (col + 1) cs :=
  scan_blank (by decide) line col cs

theorem scan_stuck {c : Char} {cs : List Char} (hblank : ¬Text.isBlank c = true)
    (h : munch (c :: cs) = none) (line : Int) (col : Nat) :
    scan line col (c :: cs) = ⟨[], c :: cs, col,
      some (if c = ':' then .loneColon line col else .unexpected c line col)⟩ := by
  conv_lhs => unfold scan
  dsimp only
  rw [if_neg hblank]
  split
  · rfl
  · next hsome =>
    rw [h] at hsome
    cases hsome

theorem scan_spelling {spelling rest : List Char} {k : Kind}
    (h : munch (spelling ++ rest) = some (k, spelling, rest)) (line : Int) (col : Nat) :
    scan line col (spelling ++ rest)
      = { scan line (col + spelling.length) rest with
          tokens := ⟨k, valueOf k spelling, line, col⟩
            :: (scan line (col + spelling.length) rest).tokens } := by
  obtain ⟨c, cs, rfl⟩ := List.exists_cons_of_ne_nil (ne_nil_of_munch h)
  have hblank : ¬Text.isBlank c = true := by simp [(plain_of_munch h c List.mem_cons_self).2]
  conv_lhs => unfold scan
  rw [List.cons_append] at h ⊢
  dsimp only
  rw [if_neg hblank]
  split
  · next hnone =>
    rw [hnone] at h
    cases h
  · next k' s r hsome =>
    rw [hsome] at h
    simp only [Option.some.injEq, Prod.mk.injEq] at h
    obtain ⟨rfl, rfl, rfl⟩ := h
    rfl

theorem scans_nil : Scans [] [] where
  ascii := by simp
  fault line col := by rw [scan_nil]
  tokens line col := by rw [scan_nil, List.map_nil]

theorem Scans.space {cs : List Char} {ts : List Token} (h : Scans cs ts) :
    Scans (' ' :: cs) ts where
  ascii c hc := by
    rcases List.mem_cons.1 hc with rfl | hc
    · decide
    · exact h.ascii c hc
  fault line col := by rw [scan_space, h.fault]
  tokens line col := by rw [scan_space, h.tokens]

/-- A token in front of a text that scans. -/
theorem Scans.cons {spelling rest : List Char} {k : Kind} {ts : List Token} (h : Scans rest ts)
    (hmunch : munch (spelling ++ rest) = some (k, spelling, rest)) :
    Scans (spelling ++ rest) ((Token.mk k (valueOf k spelling) 0 0).unplaced :: ts) where
  ascii c hc := by
    rcases List.mem_append.1 hc with hc | hc
    · exact (plain_of_munch hmunch c hc).1
    · exact h.ascii c hc
  fault line col := by
    rw [scan_spelling hmunch]
    exact h.fault line _
  tokens line col := by
    rw [scan_spelling hmunch, List.map_cons, h.tokens]
    rfl

/-- A token that is read from its spelling is spelled in front of a text that scans. -/
theorem Scans.spelled {t : Token} {rest : List Char} {ts : List Token} (h : Scans rest ts)
    (hmunch : munch (t.text.toList ++ rest) = some (t.kind, t.text.toList, rest)) :
    Scans (t.text.toList ++ rest) (t.unplaced :: ts) := by
  have hsame : (Token.mk t.kind (valueOf t.kind t.text.toList) 0 0).unplaced = t.unplaced := by
    refine unplaced_eq_iff.2 ⟨rfl, ?_⟩
    by_cases hk : t.kind = .not
    · simp [text, hk]
    · rw [text_of_munch hmunch hk, String.ofList_toList]
  rw [← hsame]
  exact h.cons hmunch

/-- A lexical token may stand before a delimiter, and an opening parenthesis before any text. -/
theorem Scans.token {t : Token} {rest : List Char} {ts : List Token} (h : Scans rest ts)
    (ht : Lexical t) (hrest : Delimited rest ∨ t.kind = .leftParen) :
    Scans (t.text.toList ++ rest) (t.unplaced :: ts) := by
  refine h.spelled ?_
  rcases hrest with hrest | hparen
  · exact ht rest hrest
  · simp only [text, hparen]
    rfl

/-- A minus sign is read before any text. -/
theorem Scans.minus {rest : List Char} {ts : List Token} (h : Scans rest ts) :
    Scans ('-' :: rest) (op "-" :: ts) :=
  h.spelled (t := op "-") rfl

/-- A lexical token is not empty, and its first character is not blank. -/
theorem Lexical.exists_cons {t : Token} (h : Lexical t) :
    ∃ c cs, t.text.toList = c :: cs ∧ Text.isBlank c = false := by
  have hmunch := h [] (by simp [Delimited])
  obtain ⟨c, cs, hcs⟩ := List.exists_cons_of_ne_nil (ne_nil_of_munch hmunch)
  exact ⟨c, cs, hcs, (plain_of_munch hmunch c (hcs ▸ List.mem_cons_self)).2⟩

/-- A text that scans is tokenized. -/
theorem Scans.tokenize {s : String} {ts : List Token} (h : Scans s.toList ts) (line : Int) :
    ∃ tokens, tokenize s line = .ok tokens ∧ tokens.dropLast.map unplaced = ts := by
  have hbytes : s.toUTF8.toList.map Text.ofByte = s.toList := Text.bytes_of_ascii h.ascii
  refine ⟨_, tokenizeBytes_eq_ok_iff.2 ⟨?_, rfl⟩, ?_⟩
  · rw [hbytes, h.fault]
  · rw [hbytes, List.dropLast_concat, h.tokens]

/-! ## Spelled expressions -/

/-- Without a space, a token follows an opening parenthesis or is a parenthesis or a comma. -/
theorem text_of_tight {before t : Token} (h : Expression.tight before t = true) :
    before.kind = .leftParen ∨ ∃ c ∈ ['(', ')', ','], t.text.toList = [c] := by
  simp only [Expression.tight, Bool.or_eq_true, Bool.and_eq_true, beq_iff_eq] at h
  rcases h with ((hbefore | hclose) | hcomma) | ⟨hopen, -⟩
  · exact .inl hbefore
  · exact .inr ⟨')', by decide, by simp only [text, hclose]; rfl⟩
  · exact .inr ⟨',', by decide, by simp only [text, hcomma]; rfl⟩
  · exact .inr ⟨'(', by decide, by simp only [text, hopen]; rfl⟩

/-- What is written after a token is read as the tokens it spells. It starts with a delimiter,
unless the token is an opening parenthesis. -/
theorem Scans.spellAfter {rest : List Char} {us : List Token} (h : Scans rest us)
    (hrest : Delimited rest) {ts : List Token} (hts : ∀ t ∈ ts, Lexical t) (before : Token) :
    Scans ((Expression.spellAfter before ts).toList ++ rest) (ts.map unplaced ++ us)
      ∧ (Delimited ((Expression.spellAfter before ts).toList ++ rest)
        ∨ before.kind = .leftParen) := by
  induction ts generalizing before with
  | nil => exact ⟨h, .inl hrest⟩
  | cons t ts ih =>
    obtain ⟨hscans, hafter⟩ := ih (fun u hu => hts u (List.mem_cons_of_mem t hu)) t
    have ht := hts t List.mem_cons_self
    have htoken := hscans.token ht hafter
    rw [Expression.spellAfter]
    split
    · next htight =>
      rw [String.empty_append, String.toList_append, List.append_assoc]
      refine ⟨htoken, ?_⟩
      have hdelimiters : ∀ c ∈ ['(', ')', ','], c ∈ delimiters := by simp [delimiters]
      rcases text_of_tight htight with hbefore | ⟨c, hc, htext⟩
      · exact .inr hbefore
      · rw [htext]
        exact .inl (delimited_cons (hdelimiters c hc) _)
    · rw [String.toList_append, String.toList_append, List.append_assoc, List.append_assoc]
      exact ⟨htoken.space, .inl (delimited_cons (by decide) _)⟩

/-! ## Texts that spell tokens -/

/-- In front of every delimited text that scans, the text scans to these tokens. -/
def Spells (s : String) (ts : List Token) : Prop :=
  ∀ rest us, Scans rest us → Delimited rest → Scans (s.toList ++ rest) (ts ++ us)

theorem spells_empty : Spells "" [] := fun _ _ h _ => h

theorem spells_token {t : Token} (h : Lexical t) : Spells t.text [t.unplaced] :=
  fun _ _ hrest hdelimited => hrest.token h (.inl hdelimited)

/-- An expression is read as the tokens it was written from. -/
theorem spells_expression {ts : List Token} (h : ∀ t ∈ ts, Lexical t) :
    Spells (Expression.spell ts) (ts.map unplaced) := by
  intro rest us hrest hdelimited
  cases ts with
  | nil => exact hrest
  | cons t ts =>
    obtain ⟨hscans, hafter⟩ :=
      hrest.spellAfter hdelimited (fun u hu => h u (List.mem_cons_of_mem t hu)) t
    rw [Expression.spell, String.toList_append, List.append_assoc]
    exact hscans.token (h t List.mem_cons_self) hafter

/-- What is written with a space or a delimiter after it may be followed by more. -/
theorem Spells.append {s u : String} {ts us : List Token} (hs : Spells s ts) (hu : Spells u us)
    (h : ∀ rest, Delimited rest → Delimited (u.toList ++ rest)) : Spells (s ++ u) (ts ++ us) := by
  intro rest vs hrest hdelimited
  rw [String.toList_append, List.append_assoc, List.append_assoc]
  exact hs _ _ (hu rest vs hrest hdelimited) (h rest hdelimited)

theorem Spells.space {s : String} {ts : List Token} (h : Spells s ts) : Spells (" " ++ s) ts := by
  intro rest us hrest hdelimited
  rw [String.toList_append, List.append_assoc]
  exact (h rest us hrest hdelimited).space

/-- Text after a space may follow any token. -/
theorem delimited_space (s : String) (rest : List Char) :
    Delimited ((" " ++ s).toList ++ rest) := by
  rw [String.toList_append]
  exact delimited_cons (by decide) _

/-- A token with a fixed spelling is lexical. -/
theorem lexical_fixed {t : Token} (h : (t.text.toList, t.kind) ∈ fixedSpellings) : Lexical t :=
  fun _ hrest => munch_fixed h (hrest.endsBefore _)

theorem lexical_comma : Lexical comma := lexical_fixed (by decide)

theorem lexical_leftParen : Lexical leftParen := lexical_fixed (by decide)

theorem lexical_rightParen : Lexical rightParen := lexical_fixed (by decide)

theorem lexical_implies : Lexical implies := lexical_fixed (by decide)

theorem lexical_dot : Lexical dot := lexical_fixed (by decide)

theorem lexical_equals : Lexical (op "=") := lexical_fixed (by decide)

theorem lexical_negation : Lexical negation := fun _ h => munch_not (h.endsBefore _)

/-- Texts with a comma and a space between them spell tokens with commas between them. -/
theorem spells_intercalate {ss : List String} {pieces : List (List Token)}
    (h : List.Forall₂ Spells ss pieces) : Spells (", ".intercalate ss) (joined pieces) := by
  induction h with
  | nil => exact spells_empty
  | @cons s ts ss pieces hs hmore ih =>
    cases hmore with
    | nil =>
      rw [String.intercalate_singleton, joined, List.intercalate_singleton]
      exact hs
    | cons hnext hmore =>
      have hcomma := (spells_token lexical_comma).append ih.space
        fun rest _ => delimited_space _ rest
      have hall := hs.append hcomma fun rest _ => by
        rw [String.toList_append]
        exact delimited_cons (c := ',') (by decide) _
      have hseparator : ∀ u : String, ", " ++ u = "," ++ (" " ++ u) := by
        intro u
        rw [← String.append_assoc]
        rfl
      rw [String.intercalate_cons_cons, joined, List.intercalate_cons_cons, String.append_assoc,
        List.append_assoc, hseparator]
      exact hall

end Token

end RulePlan
