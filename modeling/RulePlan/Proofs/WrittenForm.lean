import RulePlan.Proofs.ScannedTokens
import RulePlan.Yaml.Node

/-!
# RulePlan.Proofs.WrittenForm — the tokens of a written form

A form is written with one entry or item on a line, and blocks are told apart by their columns
alone. Its tokens are given here by its shape (`Form.tokens`), its tree too (`Form.toNode`). That a
scan of the written text finds these tokens is proved along the form: an entry or item leads from
the place where it starts to the first line after it, with all blocks ended that are indented more
than that line.

The statement covers the forms that documents are made of (`Form.Writable`): texts of a
single line, numbers and other values without quotes, lists of words on one line, lists of texts and
mappings, and mappings with plain keys, nested no deeper than the scanner allows.
-/

namespace RulePlan.Yaml

namespace Form

/-! ## Tokens and trees of forms -/

/-- The text of a scalar. -/
def word : Form → String
  | .verbatim s => s
  | .text s => s
  | .list _ _ => ""
  | .map _ => ""

/-- The tokens of a list on one line. -/
def bracketTokens (items : List Form) : List Token.Kind :=
  .bracketOpen :: (items.map fun i => Token.Kind.scalar true i.word).intersperse .comma
    ++ [.bracketClose]

mutual

/-- The tokens of a written form. -/
def tokens : Form → List Token.Kind
  | .verbatim s => [.scalar true s]
  | .text s => [.scalar (Style.ofText s = .plain) s]
  | .list true items => bracketTokens items
  | .list false [] => bracketTokens []
  | .list false (item :: items) => .listStart :: (itemTokens (item :: items) ++ [.blockEnd])
  | .map entries => .mapStart :: (entryTokens entries ++ [.blockEnd])

/-- The tokens of items, one on a line. -/
def itemTokens : List Form → List Token.Kind
  | [] => []
  | item :: items => .dash :: (tokens item ++ itemTokens items)

/-- The tokens of the entries of a mapping. -/
def entryTokens : List (String × Form) → List Token.Kind
  | [] => []
  | (key, value) :: entries =>
    .key :: .scalar true key :: .value :: (tokens value ++ entryTokens entries)

end

mutual

/-- The tree that a written form is read as. -/
def toNode : Form → Node
  | .verbatim s => .plain s
  | .text s => if Style.ofText s = .plain then .plain s else .quoted s
  | .list _ items => .list (toNodes items)
  | .map entries => .map (toEntries entries)

/-- The trees of items. -/
def toNodes : List Form → List Node
  | [] => []
  | item :: items => toNode item :: toNodes items

/-- The trees of the entries of a mapping. -/
def toEntries : List (String × Form) → List (Node × Node)
  | [] => []
  | (key, value) :: entries => (.plain key, toNode value) :: toEntries entries

end

/-! ## Writable forms -/

/-- A scalar that stands for itself in a list on one line. -/
inductive IsInline : Form → Prop
  | verbatim {s : String} (h : Plain.IsName s.toList) : IsInline (.verbatim s)
  | text {s : String} (h : Plain.IsName s.toList) (hs : Style.ofText s = .plain) :
    IsInline (.text s)

theorem IsInline.name {i : Form} (h : IsInline i) :
    Plain.IsName i.word.toList ∧ i.inlineText = i.word.toList := by
  cases h with
  | verbatim h => exact ⟨h, rfl⟩
  | text h hs => exact ⟨h, if_pos hs⟩

theorem IsInline.toNode_eq {i : Form} (h : IsInline i) : i.toNode = .plain i.word := by
  cases h with
  | verbatim h => rfl
  | text h hs => rw [toNode, if_pos hs]; rfl

/-- A key that stands for itself before its colon. -/
structure IsKey (key : String) : Prop where
  name : Plain.IsName key.toList
  short : key.toList.length ≤ Scanner.maxKeySize
  plain : Style.ofText key = .plain

/-- A form that can be written, with blocks nested up to a depth. -/
inductive Writable : (room : Nat) → Form → Prop
  | text {room : Nat} {s : String} (h : Text.IsSingleLine s) : Writable room (.text s)
  | verbatim {room : Nat} {s : String} (h : Style.Unquoted s.toList) : Writable room (.verbatim s)
  | inline {room : Nat} {items : List Form} (h : ∀ i ∈ items, IsInline i) :
    Writable room (.list true items)
  | list {room : Nat} {items : List Form} (hitem : ∀ i ∈ items, ∀ b l, i ≠ .list b l)
    (h : ∀ i ∈ items, Writable room i) : Writable (room + 1) (.list false items)
  | map {room : Nat} {entries : List (String × Form)} (hne : entries ≠ [])
    (hkey : ∀ e ∈ entries, IsKey e.1) (h : ∀ e ∈ entries, Writable room e.2) :
    Writable (room + 1) (.map entries)

theorem hasStructure_eq_false {cs : List Char} (h : ∀ c ∈ cs, c ≠ ':' ∧ c ≠ '#') (before : Char) :
    Style.hasStructure before cs = false := by
  induction cs generalizing before with
  | nil => rfl
  | cons c cs ih =>
    obtain ⟨hcolon, hhash⟩ := h c List.mem_cons_self
    rw [Style.hasStructure, ih fun d hd => h d (List.mem_cons_of_mem c hd)]
    simp [hcolon, hhash]

theorem of_isNameChar {c : Char} (h : isNameChar c) :
    Prints c ∧ c ≠ ' ' ∧ c ≠ ':' ∧ c ≠ '#' ∧ c ≠ '?'
      ∧ Style.isIndicator c = false :=
  forall_ascii (P := fun c => isNameChar c → Prints c ∧ c ≠ ' ' ∧ c ≠ ':'
    ∧ c ≠ '#' ∧ c ≠ '?' ∧ Style.isIndicator c = false) (by decide +kernel)
    (Plain.toNat_of_isNameChar h) h

/-- Names stand without quotes. -/
theorem unquoted_of_isName {cs : List Char} (h : Plain.IsName cs) : Style.Unquoted cs := by
  obtain ⟨c, hc, halnum⟩ := h.head
  obtain ⟨rest, rfl⟩ := List.head?_eq_some_iff.1 hc
  have hfirst := of_isNameChar (h.chars c List.mem_cons_self)
  refine ⟨⟨fun d hd => (of_isNameChar (h.chars d hd)).1, by simp, by simpa using hfirst.2.1,
    by simpa using hfirst.2.2.2.1, ?_, ?_⟩, ?_, ?_⟩
  · intro hlast
    exact (of_isNameChar (h.chars ' ' (List.mem_of_getLast? hlast))).2.1 rfl
  · refine hasStructure_eq_false (fun d hd => ?_) ' '
    obtain ⟨-, -, hcolon, hhash, -⟩ := of_isNameChar (h.chars d hd)
    exact ⟨hcolon, hhash⟩
  · intro d hd
    obtain rfl : c = d := by simpa using hd
    exact hfirst.2.2.2.2.2
  · rintro d more hcons hsign
    obtain ⟨rfl, rfl⟩ := List.cons.inj hcons
    obtain rfl | rfl | rfl := hsign
    · exact absurd halnum (by decide)
    · exact absurd rfl hfirst.2.2.2.2.1
    · exact absurd rfl hfirst.2.2.1

end Form

namespace Scanner

open Form

/-! ## Below a block -/

theorem begins_name {name : List Char} (h : Plain.IsName name) (rest : List Char) :
    Begins (name ++ rest) := by
  obtain ⟨c, hc, -⟩ := h.head
  obtain ⟨name, rfl⟩ := List.head?_eq_some_iff.1 hc
  obtain ⟨hlegible, hspace, -, hhash, -⟩ := of_isNameChar (h.chars c List.mem_cons_self)
  exact begins_cons (isGap_eq_false hlegible hspace) hhash

theorem below_cons {kinds : List Token.Kind} {column m : Nat} {columns : List Nat}
    {content : List Char} (h : m < column) :
    Status.below kinds (column :: columns) m content
      = Status.below (kinds ++ [.blockEnd]) columns m content := by
  have hending : ending 0 m (column :: columns) = ending 0 m columns + 1 := by
    simp [ending, h]
  simp [Status.below, hending, List.replicate_succ]

theorem below_eq {kinds : List Token.Kind} {column m : Nat} {columns : List Nat}
    {content : List Char} (h : column ≤ m) :
    Status.below kinds (column :: columns) m content
      = { kinds, rest := content, column := m, columns := column :: columns, depth := 0,
          keyAllowed := true, key := .optional } := by
  have hending : ending 0 m (column :: columns) = 0 := ending_eq_zero (.inr (by simpa using h))
  simp [Status.below, hending]

theorem nested_eq_cons {columns : List Nat} {column : Nat}
    (h : ∀ top ∈ columns.head?, top ≤ column) :
    ∃ outer, nested columns column = column :: outer := by
  unfold nested
  split
  · exact ⟨columns, rfl⟩
  · rename_i hold
    cases columns with
    | nil => simp at hold
    | cons top columns =>
      have hle := h top rfl
      obtain rfl : top = column := by
        simp only [List.head?_cons, Option.all_some, decide_eq_true_eq] at hold
        omega
      exact ⟨columns, rfl⟩

theorem nested_cons (column : Nat) (outer : List Nat) :
    nested (column :: outer) column = column :: outer := by
  simp [nested]

theorem opened_cons (column : Nat) (outer : List Nat) (kind : Token.Kind) :
    opened (column :: outer) column kind = [] := by
  simp [opened]

theorem nested_of_lt {top column : Nat} (h : top < column) (outer : List Nat) :
    nested (top :: outer) column = column :: top :: outer := by
  simp [nested, h]

theorem opened_of_lt {top column : Nat} (h : top < column) (outer : List Nat) (kind : Token.Kind) :
    opened (top :: outer) column kind = [kind] := by
  simp [opened, h]

section

variable {st : Status} {m : Nat} {content : List Char}

theorem exists_intercalate {item : Form} {l : List Form}
    (htext : item.inlineText = item.word.toList) :
    ∃ more,
      List.intercalate [',', ' '] ((item :: l).map inlineText) = item.word.toList ++ more := by
  cases l with
  | nil => exact ⟨[], by simp [htext]⟩
  | cons next l =>
    exact ⟨_, by rw [List.map_cons, List.map_cons, List.intercalate_cons_cons, htext,
      List.append_assoc]⟩

variable (st) in
/-- The words of a list on one line are read up to its bracket. -/
theorem leads_words {item : Form} {items : List Form} {kinds : List Token.Kind}
    (hcontent : Begins content) (hitems : ∀ i ∈ item :: items, IsInline i)
    (hrest : st.rest = List.intercalate [',', ' '] ((item :: items).map inlineText)
      ++ ']' :: '\n' :: (List.replicate m ' ' ++ content))
    (hdepth : st.depth = 1) (hkey : st.key.Free)
    (hcolumn : 0 < st.column) (hunended : .streamEnd ∉ st.kinds)
    (hkinds : kinds = st.kinds
      ++ ((item :: items).map fun i => Token.Kind.scalar true i.word).intersperse .comma
      ++ [.bracketClose]) :
    Leads st (.below kinds st.columns m content) := by
  induction items generalizing st item kinds with
  | nil =>
    obtain ⟨hname, htext⟩ := (hitems item (by simp)).name
    have hline : st.rest = item.word.toList
        ++ ']' :: '\n' :: (List.replicate m ' ' ++ content) := by
      rw [hrest]
      simp [htext]
    refine .head (step_bracketName st hname (.inr rfl) hline hdepth hkey hunended) (.single ?_)
    refine step_bracketClose _ hcontent rfl rfl trivial ?_ ?_ ?_
    · exact Nat.lt_of_lt_of_le hcolumn (Nat.le_add_right _ _)
    · simpa [Status.bracketed] using hunended
    · simp [hkinds, Status.bracketed, String.ofList_toList]
  | cons next items ih =>
    obtain ⟨hname, htext⟩ := (hitems item (by simp)).name
    obtain ⟨hnext, hnextText⟩ := (hitems next (by simp)).name
    have hline : st.rest = item.word.toList ++ ',' :: ' ' ::
        (List.intercalate [',', ' '] ((next :: items).map inlineText)
          ++ ']' :: '\n' :: (List.replicate m ' ' ++ content)) := by
      rw [hrest]
      simp [htext]
    have hbegins : Begins (List.intercalate [',', ' '] ((next :: items).map inlineText)
        ++ ']' :: '\n' :: (List.replicate m ' ' ++ content)) := by
      obtain ⟨more, hmore⟩ := exists_intercalate (l := items) hnextText
      rw [hmore, List.append_assoc]
      exact begins_name hnext _
    refine .head (step_bracketName st hname (.inl rfl) hline hdepth hkey hunended) ?_
    refine .head (step_comma _ hbegins rfl rfl trivial ?_ ?_) ?_
    · exact Nat.lt_of_lt_of_le hcolumn (Nat.le_add_right _ _)
    · simpa [Status.bracketed] using hunended
    · refine ih _ (fun i hi => hitems i (List.mem_cons_of_mem item hi)) rfl rfl trivial ?_ ?_ ?_
      · simp only [Status.bracketed]
        omega
      · simpa [Status.bracketed] using hunended
      · simp [hkinds, Status.bracketed, String.ofList_toList]

variable (st) in
/-- A list on one line is read up to the next line. -/
theorem leads_brackets {items : List Form} {kinds : List Token.Kind} (hcontent : Begins content)
    (hitems : ∀ i ∈ items, IsInline i)
    (hrest : st.rest = inlineList items ++ '\n' :: (List.replicate m ' ' ++ content))
    (hdepth : st.depth = 0) (hallowed : st.keyAllowed = false) (hkey : st.key = .none)
    (hcolumn : 0 < st.column) (hunended : .streamEnd ∉ st.kinds)
    (hkinds : kinds = st.kinds ++ bracketTokens items) :
    Leads st (.below kinds st.columns m content) := by
  cases items with
  | nil =>
    have hline : st.rest = '[' :: ']' :: '\n' :: (List.replicate m ' ' ++ content) := hrest
    have hbegins : Begins (']' :: '\n' :: (List.replicate m ' ' ++ content)) :=
      begins_cons (by decide) (by decide)
    refine .head (step_bracketOpen st hbegins hline hdepth hallowed hkey hcolumn hunended)
      (.single ?_)
    refine step_bracketClose _ hcontent rfl rfl trivial (Nat.succ_pos _) ?_ ?_
    · simpa [Status.bracketed] using hunended
    · simp [hkinds, bracketTokens, Status.bracketed]
  | cons item items =>
    obtain ⟨hname, htext⟩ := (hitems item (by simp)).name
    have hline : st.rest = '[' :: (List.intercalate [',', ' '] ((item :: items).map inlineText)
        ++ ']' :: '\n' :: (List.replicate m ' ' ++ content)) := by
      rw [hrest, inlineList]
      simp
    obtain ⟨more, hmore⟩ := exists_intercalate (l := items) htext
    have hbegins : Begins (List.intercalate [',', ' '] ((item :: items).map inlineText)
        ++ ']' :: '\n' :: (List.replicate m ' ' ++ content)) := by
      rw [hmore, List.append_assoc]
      exact begins_name hname _
    refine .head (step_bracketOpen st hbegins hline hdepth hallowed hkey hcolumn hunended) ?_
    refine leads_words _ hcontent hitems rfl rfl trivial (Nat.succ_pos _) ?_ ?_
    · simpa [Status.bracketed] using hunended
    · simp [hkinds, bracketTokens, Status.bracketed]

/-! ## Entries and items -/

/-- A status at the start of the content of a line. -/
structure Fresh (st : Status) : Prop where
  unended : .streamEnd ∉ st.kinds
  depth : st.depth = 0
  keyAllowed : st.keyAllowed = true
  key : st.key.Free
  columns : ∀ top ∈ st.columns.head?, top ≤ st.column

/-- A form is read as the value of a key up to the next line. -/
def ScansValue (step room : Nat) (f : Form) : Prop :=
  ∀ {st : Status} {front : List Token.Kind} {name : Token.Kind} {column m : Nat}
    {content : List Char} {kinds : List Token.Kind}, Keyed st front name column →
    (nested st.columns column).length + room ≤ maxDepth → Begins content → m ≤ column →
    st.rest = ':' :: (afterKey step column f ++ (List.replicate m ' ' ++ content)) →
    kinds = front ++ opened st.columns column .mapStart ++ [.key, name, .value] ++ f.tokens →
    Leads st (.below kinds (nested st.columns column) m content)

/-- A form is read as an item after its dash up to the next line. -/
def ScansItem (step room : Nat) (f : Form) : Prop :=
  ∀ {st : Status} {top m : Nat} {outer : List Nat} {content : List Char} {kinds : List Token.Kind},
    Fresh st → st.columns = top :: outer → top < st.column → m ≤ top →
    st.columns.length + room ≤ maxDepth → Begins content →
    st.rest = afterDash step st.column f ++ (List.replicate m ' ' ++ content) →
    kinds = st.kinds ++ f.tokens → Leads st (.below kinds st.columns m content)

/-- The name of an entry is read up to its colon. -/
theorem Fresh.step_name (h : Fresh st) {key : String} (hkey : IsKey key) {g : Char}
    {more : List Char} (hg : isGap g = true) (hrest : st.rest = onLine key ++ ':' :: g :: more)
    (hroom : (nested st.columns st.column).length ≤ maxDepth) :
    ∃ next, Step st next ∧ Keyed next st.kinds (.scalar true key) st.column
      ∧ next.rest = ':' :: g :: more ∧ next.columns = st.columns := by
  have hline : st.rest = key.toList ++ ':' :: g :: more := by
    rw [hrest, onLine, if_pos hkey.plain]
  obtain ⟨d, hd, -⟩ := hkey.name.head
  refine ⟨_, Scanner.step_name st hkey.name hkey.short hg h.unended hline h.keyAllowed h.key
    h.columns, ⟨?_, rfl, ?_, h.depth, ?_, h.columns, hroom⟩, rfl, rfl⟩
  · simp [Status.name, String.ofList_toList]
  · simpa [Status.name] using h.unended
  · have hpos : 0 < key.toList.length := by
      obtain ⟨rest, hcons⟩ := List.head?_eq_some_iff.1 hd
      simp [hcons]
    exact Nat.lt_add_of_pos_right hpos

theorem not_mem_opened {columns : List Nat} {column : Nat} {kind : Token.Kind}
    (h : kind ≠ .streamEnd) : .streamEnd ∉ opened columns column kind := by
  unfold opened
  split
  · simpa using h.symm
  · simp

theorem Keyed.unended_value {front : List Token.Kind} {name : Token.Kind} {column : Nat}
    (h : Keyed st front name column) {place : Nat} {keyAllowed : Bool} {rest : List Char} :
    .streamEnd ∉ (st.valueAt front name column place keyAllowed rest).kinds := by
  have hunended := h.unended
  rw [h.kinds] at hunended
  simp only [List.mem_append, not_or, List.mem_singleton] at hunended
  simp [Status.valueAt, Status.value, hunended, not_mem_opened]

theorem begins_spelled {text : String} {plain : Bool} {word : List Char}
    (h : Style.Spells text plain word) (rest : List Char) : Begins (word ++ rest) := by
  cases h with
  | plain h =>
    obtain ⟨c, cs, hcs⟩ := List.exists_cons_of_ne_nil h.ne_nil
    rw [hcs]
    exact begins_cons (isGap_eq_false (h.legible c (by simp [hcs]))
      fun hc => h.head_space (by simp [hcs, hc])) fun hc => h.head_hash (by simp [hcs, hc])
  | quoted hs hclass hquote =>
    obtain rfl | rfl := hquote <;> exact begins_cons (by decide) (by decide)

/-- A scalar whose spelling is known is read in both places. -/
theorem scans_scalar (step room : Nat) (f : Form) {text : String} {plain : Bool}
    (htokens : f.tokens = [.scalar plain text])
    (hvalue : ∀ column, ∃ word, Style.Spells text plain word
      ∧ afterKey step column f = ' ' :: (word ++ ['\n']))
    (hitem : ∀ column, ∃ word, Style.Spells text plain word
      ∧ afterDash step column f = word ++ ['\n']) :
    ScansValue step room f ∧ ScansItem step room f := by
  constructor
  · intro st front name column m content kinds hst hroom hcontent hm hrest hkinds
    obtain ⟨word, hword, hafter⟩ := hvalue column
    obtain ⟨outer, hnested⟩ := nested_eq_cons hst.columns
    have hline : st.rest = ':' :: ' ' :: (word ++ '\n' :: (List.replicate m ' ' ++ content)) := by
      rw [hrest, hafter]
      simp
    refine .head (hst.step_inline (begins_spelled hword _) hline) (.single ?_)
    refine step_text _ hword hcontent ?_ rfl hst.depth trivial hnested ?_ hm ?_
    · exact hst.unended_value
    · have := hst.column_lt
      simp only [Status.valueAt]
      omega
    · rw [hkinds, htokens]
      rfl
  · intro st top m outer content kinds hst hcolumns htop hm hroom hcontent hrest hkinds
    obtain ⟨word, hword, hafter⟩ := hitem st.column
    have hline : st.rest = word ++ '\n' :: (List.replicate m ' ' ++ content) := by
      rw [hrest, hafter]
      simp
    refine .single (step_text _ hword hcontent hst.unended hline hst.depth hst.key hcolumns
      htop hm ?_)
    rw [hkinds, htokens]

theorem lt_deeper {step : Nat} (hstep : 0 < step) (column : Nat) : column < deeper step column := by
  have hdiv := Nat.div_add_mod (column + step) step
  have hmod := Nat.mod_lt (column + step) hstep
  unfold deeper
  omega

/-- Lists on one line are read as values. -/
theorem scansValue_brackets {step room : Nat} {f : Form} (items : List Form)
    (hitems : ∀ i ∈ items, IsInline i) (htokens : f.tokens = bracketTokens items)
    (hafter : ∀ column, afterKey step column f = ' ' :: (inlineList items ++ ['\n'])) :
    ScansValue step room f := by
  intro st front name column m content kinds hst hroom hcontent hm hrest hkinds
  have hline : st.rest = ':' :: ' ' :: (inlineList items
      ++ '\n' :: (List.replicate m ' ' ++ content)) := by
    rw [hrest, hafter]
    simp
  have hbegins : Begins (inlineList items ++ '\n' :: (List.replicate m ' ' ++ content)) :=
    begins_cons (by decide) (by decide)
  refine .head (hst.step_inline hbegins hline) ?_
  refine leads_brackets _ hcontent hitems rfl hst.depth rfl rfl (Nat.succ_pos _)
    hst.unended_value ?_
  rw [hkinds, htokens]
  rfl

theorem not_mem_bracketTokens (items : List Form) : .streamEnd ∉ bracketTokens items := by
  have hwords : .streamEnd
      ∉ (items.map fun i => Token.Kind.scalar true i.word).intersperse .comma := by
    induction items with
    | nil => simp
    | cons item items ih =>
      cases items with
      | nil => simp
      | cons next items => simpa using ih
  simpa [bracketTokens] using hwords

mutual

theorem not_mem_tokens : (f : Form) → .streamEnd ∉ f.tokens
  | .verbatim _ => by simp [tokens]
  | .text _ => by simp [tokens]
  | .list true items => by simpa [tokens] using not_mem_bracketTokens items
  | .list false [] => by simpa [tokens] using not_mem_bracketTokens []
  | .list false (item :: items) => by
    simpa [tokens] using not_mem_itemTokens (item :: items)
  | .map entries => by simpa [tokens] using not_mem_entryTokens entries

theorem not_mem_itemTokens : (items : List Form) → .streamEnd ∉ itemTokens items
  | [] => by simp [itemTokens]
  | item :: items => by
    simpa [itemTokens] using ⟨not_mem_tokens item, not_mem_itemTokens items⟩

theorem not_mem_entryTokens : (entries : List (String × Form)) → .streamEnd ∉ entryTokens entries
  | [] => by simp [entryTokens]
  | (_, value) :: entries => by
    simpa [entryTokens] using ⟨not_mem_tokens value, not_mem_entryTokens entries⟩

end

theorem entryTokens_eq_flatMap (entries : List (String × Form)) :
    entryTokens entries
      = entries.flatMap fun e => [.key, .scalar true e.1, .value] ++ e.2.tokens := by
  induction entries with
  | nil => rw [entryTokens, List.flatMap_nil]
  | cons e entries ih =>
    rw [entryTokens, List.flatMap_cons, ih]
    rfl

theorem itemTokens_eq_flatMap (items : List Form) :
    itemTokens items = items.flatMap fun i => .dash :: i.tokens := by
  induction items with
  | nil => rw [itemTokens, List.flatMap_nil]
  | cons i items ih =>
    rw [itemTokens, List.flatMap_cons, ih]
    rfl

/-- Pieces that stand at one column are read one after the other, if each of them is read up to the
line after it. -/
theorem leads_pieces {α : Type} (P : α → Prop) {start : Token.Kind} {room column : Nat}
    (line : α → List Char) (text : List α → List Char) {tokensOf : α → List Token.Kind}
    (hstart : start ≠ .streamEnd) (hunended : ∀ a, .streamEnd ∉ tokensOf a)
    (hlast : ∀ a, text [a] = line a)
    (hmore : ∀ a b as, text (a :: b :: as)
      = line a ++ (List.replicate column ' ' ++ text (b :: as)))
    (hbegins : ∀ as, as ≠ [] → (∀ a ∈ as, P a) → ∀ rest, Begins (text as ++ rest))
    (hpiece : ∀ {a : α} {st : Status} {m : Nat} {content : List Char}, P a → Fresh st →
      st.column = column → (nested st.columns column).length + room ≤ maxDepth → Begins content →
      m ≤ column → st.rest = line a ++ (List.replicate m ' ' ++ content) →
      Leads st (.below (st.kinds ++ opened st.columns column start ++ tokensOf a)
        (nested st.columns column) m content))
    {pieces : List α} (hne : pieces ≠ []) (hall : ∀ a ∈ pieces, P a) (hst : Fresh st)
    (hcolumn : st.column = column) (hroom : (nested st.columns column).length + room ≤ maxDepth)
    (hcontent : Begins content) (hm : m ≤ column)
    (hrest : st.rest = text pieces ++ (List.replicate m ' ' ++ content)) :
    Leads st (.below (st.kinds ++ opened st.columns column start ++ pieces.flatMap tokensOf)
      (nested st.columns column) m content) := by
  induction pieces generalizing st with
  | nil => exact absurd rfl hne
  | cons a pieces ih =>
    obtain ⟨ha, hpieces⟩ := List.forall_mem_cons.1 hall
    cases pieces with
    | nil =>
      rw [List.flatMap_singleton]
      exact hpiece ha hst hcolumn hroom hcontent hm (by rw [hrest, hlast])
    | cons b pieces =>
      have hmoreBegins := hbegins _ (List.cons_ne_nil b pieces) hpieces
        (List.replicate m ' ' ++ content)
      have hfirst := hpiece ha hst hcolumn hroom hmoreBegins (Nat.le_refl column) (by
        rw [hrest, hmore]
        simp only [List.append_assoc])
      -- the next piece starts at the same column, so no block ends before it
      obtain ⟨outer, hnested⟩ := nested_eq_cons (hcolumn ▸ hst.columns)
      rw [hnested] at hroom ⊢
      rw [hnested, below_eq (Nat.le_refl column)] at hfirst
      have hfresh : Fresh {
          kinds := st.kinds ++ opened st.columns column start ++ tokensOf a
          rest := text (b :: pieces) ++ (List.replicate m ' ' ++ content)
          column
          columns := column :: outer
          depth := 0
          keyAllowed := true
          key := .optional } := by
        refine ⟨?_, rfl, rfl, trivial, by simp⟩
        simpa [not_mem_opened hstart, hunended] using hst.unended
      have hnext := ih (List.cons_ne_nil b pieces) hpieces hfresh rfl (by rwa [nested_cons]) rfl
      rw [opened_cons, nested_cons, List.append_nil] at hnext
      rw [List.flatMap_cons, ← List.append_assoc]
      exact .trans hfirst hnext

theorem keyed_cons_cons (step column : Nat) (key : String) (value : Form) (e : String × Form)
    (entries : List (String × Form)) :
    keyed step column ((key, value) :: e :: entries)
      = onLine key ++ ':' :: afterKey step column value
        ++ (List.replicate column ' ' ++ keyed step column (e :: entries)) := by
  rw [keyed, List.append_assoc]
  · rfl
  · simp

/-- The first line of a mapping starts with its first key. -/
theorem begins_keyed {step column : Nat} {entries : List (String × Form)} (hne : entries ≠ [])
    (hkey : ∀ e ∈ entries, IsKey e.1) (rest : List Char) :
    Begins (keyed step column entries ++ rest) := by
  obtain ⟨⟨key, value⟩, entries, rfl⟩ := List.exists_cons_of_ne_nil hne
  have hk : IsKey key := hkey (key, value) (by simp)
  have hline : onLine key = key.toList := if_pos hk.plain
  cases entries with
  | nil =>
    rw [keyed, hline, List.append_assoc]
    exact begins_name hk.name _
  | cons e entries =>
    rw [keyed_cons_cons, hline, List.append_assoc, List.append_assoc]
    exact begins_name hk.name _

/-- The value of a key starts with a gap. -/
theorem exists_afterKey (step column : Nat) (f : Form) :
    ∃ g more, isGap g = true ∧ afterKey step column f = g :: more := by
  unfold afterKey
  split <;> exact ⟨_, _, by decide, rfl⟩

/-- One entry of a mapping is read up to the next line. -/
theorem leads_entry {step room : Nat} {key : String} {value : Form} (hkey : IsKey key)
    (hvalue : ScansValue step room value) {kinds : List Token.Kind} (hst : Fresh st)
    (hroom : (nested st.columns st.column).length + room ≤ maxDepth) (hcontent : Begins content)
    (hm : m ≤ st.column)
    (hrest : st.rest = onLine key ++ ':' :: (afterKey step st.column value
      ++ (List.replicate m ' ' ++ content)))
    (hkinds : kinds = st.kinds ++ opened st.columns st.column .mapStart
      ++ [.key, .scalar true key, .value] ++ value.tokens) :
    Leads st (.below kinds (nested st.columns st.column) m content) := by
  obtain ⟨g, more, hg, hafter⟩ := exists_afterKey step st.column value
  have hline : st.rest
      = onLine key ++ ':' :: g :: (more ++ (List.replicate m ' ' ++ content)) := by
    rw [hrest, hafter]
    rfl
  obtain ⟨next, hstep, hkeyed, hnextRest, hnextColumns⟩ := hst.step_name hkey hg hline (by omega)
  rw [← List.cons_append, ← hafter] at hnextRest
  refine .head hstep ?_
  rw [← hnextColumns] at hkinds hroom ⊢
  exact hvalue hkeyed hroom hcontent hm hnextRest hkinds

/-- The entries of a mapping are read one after the other. -/
theorem leads_entries {step room : Nat} {entries : List (String × Form)} (hne : entries ≠ [])
    (hkey : ∀ e ∈ entries, IsKey e.1) (hvalue : ∀ e ∈ entries, ScansValue step room e.2)
    {kinds : List Token.Kind} (hst : Fresh st)
    (hroom : (nested st.columns st.column).length + room ≤ maxDepth) (hcontent : Begins content)
    (hm : m ≤ st.column)
    (hrest : st.rest = keyed step st.column entries ++ (List.replicate m ' ' ++ content))
    (hkinds : kinds = st.kinds ++ opened st.columns st.column .mapStart ++ entryTokens entries) :
    Leads st (.below kinds (nested st.columns st.column) m content) := by
  rw [hkinds, entryTokens_eq_flatMap]
  refine leads_pieces (fun e => IsKey e.1 ∧ ScansValue step room e.2)
    (fun e => onLine e.1 ++ ':' :: afterKey step st.column e.2) (keyed step st.column)
    (by decide) ?_ (fun ⟨key, value⟩ => by rw [keyed])
    (fun a b as => keyed_cons_cons step st.column a.1 a.2 b as)
    (fun as hne hall rest => begins_keyed hne (fun e he => (hall e he).1) rest) ?_ hne
    (fun e he => ⟨hkey e he, hvalue e he⟩) hst rfl hroom hcontent hm hrest
  · simp [not_mem_tokens]
  · rintro ⟨key, value⟩ next m content ⟨hk, hv⟩ hnext hcolumn hroom hcontent hm hrest
    rw [← hcolumn] at hroom hm hrest ⊢
    refine leads_entry hk hv hnext hroom hcontent hm ?_ ?_
    · rw [hrest]
      simp
    · simp

theorem dashed_cons_cons (step column : Nat) (item i : Form) (items : List Form) :
    dashed step column (item :: i :: items)
      = '-' :: ' ' :: (afterDash step (column + 2) item
        ++ (List.replicate column ' ' ++ dashed step column (i :: items))) := by
  rw [dashed]
  · simp [indentation]
  · simp

theorem begins_dashed {step column : Nat} {items : List Form} (hne : items ≠ [])
    (rest : List Char) :
    Begins (dashed step column items ++ rest) := by
  obtain ⟨item, items, rfl⟩ := List.exists_cons_of_ne_nil hne
  cases items with
  | nil => exact begins_cons (by decide) (by decide)
  | cons i items =>
    rw [dashed_cons_cons]
    exact begins_cons (by decide) (by decide)

/-- One item is read up to the next line. -/
theorem leads_item {step room : Nat} {item : Form} (hitem : ScansItem step room item)
    (hbegins : ∀ column rest, Begins (afterDash step column item ++ rest))
    {kinds : List Token.Kind} (hst : Fresh st) (hcolumn : 0 < st.column)
    (hroom : (nested st.columns st.column).length + room ≤ maxDepth) (hcontent : Begins content)
    (hm : m ≤ st.column)
    (hrest : st.rest = '-' :: ' ' :: (afterDash step (st.column + 2) item
      ++ (List.replicate m ' ' ++ content)))
    (hkinds : kinds = st.kinds ++ opened st.columns st.column .listStart ++ [.dash]
      ++ item.tokens) :
    Leads st (.below kinds (nested st.columns st.column) m content) := by
  obtain ⟨outer, hnested⟩ := nested_eq_cons hst.columns
  refine .head (step_dash st (hbegins _ _) hrest hst.depth hst.keyAllowed hst.key hcolumn
    hst.columns (by omega) hst.unended) ?_
  refine hitem ⟨?_, hst.depth, rfl, trivial, ?_⟩ hnested (Nat.lt_add_of_pos_right (by decide)) hm
    hroom hcontent rfl hkinds
  · simpa [Status.item, not_mem_opened] using hst.unended
  · intro top htop
    have hle := le_of_mem_head_nested hst.columns htop
    exact Nat.le_trans hle (Nat.le_add_right _ _)

/-- The items of a list are read one after the other. -/
theorem leads_items {step room : Nat} {items : List Form} (hne : items ≠ [])
    (hitem : ∀ i ∈ items, ScansItem step room i)
    (hbegins : ∀ i ∈ items, ∀ column rest, Begins (afterDash step column i ++ rest))
    {kinds : List Token.Kind} (hst : Fresh st) (hcolumn : 0 < st.column)
    (hroom : (nested st.columns st.column).length + room ≤ maxDepth) (hcontent : Begins content)
    (hm : m ≤ st.column)
    (hrest : st.rest = dashed step st.column items ++ (List.replicate m ' ' ++ content))
    (hkinds : kinds = st.kinds ++ opened st.columns st.column .listStart ++ itemTokens items) :
    Leads st (.below kinds (nested st.columns st.column) m content) := by
  rw [hkinds, itemTokens_eq_flatMap]
  refine leads_pieces
    (fun i => ScansItem step room i ∧ ∀ column rest, Begins (afterDash step column i ++ rest))
    (fun i => '-' :: ' ' :: afterDash step (st.column + 2) i) (dashed step st.column)
    (by decide) ?_ (fun i => by rw [dashed])
    (fun a b as => dashed_cons_cons step st.column a b as)
    (fun as hne _ rest => begins_dashed hne rest) ?_ hne
    (fun i hi => ⟨hitem i hi, hbegins i hi⟩) hst rfl hroom hcontent hm hrest
  · simp [not_mem_tokens]
  · rintro item next m content ⟨hi, hb⟩ hnext hsame hroom hcontent hm hrest
    rw [← hsame] at hroom hm hrest hcolumn ⊢
    refine leads_item hi hb hnext hcolumn hroom hcontent hm hrest ?_
    simp

/-! ## Whole forms -/

theorem Keyed.fresh_below {front : List Token.Kind} {name : Token.Kind} {column place : Nat}
    (h : Keyed st front name column) (hplace : column < place) :
    Fresh (st.valueAt front name column place true content) := by
  refine ⟨h.unended_value, h.depth, rfl, trivial, fun top htop => ?_⟩
  have hle := le_of_mem_head_nested h.columns htop
  exact Nat.le_of_lt (Nat.lt_of_le_of_lt hle hplace)

/-- A block below a key ends with the line after it. -/
theorem scansValue_block {step room : Nat} {f : Form} (start : Token.Kind) (body : List Token.Kind)
    (text : Nat → List Char) (hstep : 0 < step)
    (hafter : ∀ column, afterKey step column f
      = '\n' :: (List.replicate (deeper step column) ' ' ++ text (deeper step column)))
    (htokens : f.tokens = start :: (body ++ [.blockEnd]))
    (hbegins : ∀ column rest, Begins (text column ++ rest))
    (hblock : ∀ {st : Status} {m : Nat} {content : List Char} {kinds : List Token.Kind}, Fresh st →
      0 < st.column → (nested st.columns st.column).length + room ≤ maxDepth → Begins content →
      m ≤ st.column → st.rest = text st.column ++ (List.replicate m ' ' ++ content) →
      kinds = st.kinds ++ opened st.columns st.column start ++ body →
      Leads st (.below kinds (nested st.columns st.column) m content)) :
    ScansValue step (room + 1) f := by
  intro st front name column m content kinds hst hroom hcontent hm hrest hkinds
  have hdeeper := lt_deeper hstep column
  have hline : st.rest = ':' :: '\n' :: (List.replicate (deeper step column) ' '
      ++ (text (deeper step column) ++ (List.replicate m ' ' ++ content))) := by
    rw [hrest, hafter]
    simp
  obtain ⟨outer, hnested⟩ := nested_eq_cons hst.columns
  refine .head (hst.step_below (hbegins _ _) hdeeper hline) ?_
  have hend : Status.below kinds (nested st.columns column) m content
      = Status.below (front ++ opened st.columns column .mapStart ++ [.key, name, .value]
        ++ [start] ++ body) (nested (nested st.columns column) (deeper step column)) m content := by
    rw [hnested, nested_of_lt hdeeper, below_cons (Nat.lt_of_le_of_lt hm hdeeper), hkinds, htokens]
    simp
  rw [hend]
  refine hblock (hst.fresh_below hdeeper) (Nat.zero_lt_of_lt hdeeper) ?_ hcontent
    (Nat.le_of_lt (Nat.lt_of_le_of_lt hm hdeeper)) rfl ?_
  · change (nested (nested st.columns column) (deeper step column)).length + room ≤ maxDepth
    have hlength := nested_length (nested st.columns column) (deeper step column)
    omega
  · change _ = front ++ opened st.columns column .mapStart ++ [.key, name, .value]
      ++ opened (nested st.columns column) (deeper step column) start ++ body
    rw [hnested, opened_of_lt hdeeper]

theorem afterDash_map {step column : Nat} {entries : List (String × Form)} (hne : entries ≠ []) :
    afterDash step column (.map entries) = keyed step column entries := by
  obtain ⟨entry, entries, rfl⟩ := List.exists_cons_of_ne_nil hne
  rfl

/-- A mapping is read as a value, in a block below its key, -/
theorem scansValue_map {step room : Nat} (hstep : 0 < step) {entries : List (String × Form)}
    (hne : entries ≠ []) (hkey : ∀ e ∈ entries, IsKey e.1)
    (hvalue : ∀ e ∈ entries, ScansValue step room e.2) :
    ScansValue step (room + 1) (.map entries) := by
  obtain ⟨entry, entries, rfl⟩ := List.exists_cons_of_ne_nil hne
  refine scansValue_block .mapStart (entryTokens (entry :: entries))
    (fun column => keyed step column (entry :: entries)) hstep (fun _ => rfl) rfl
    (fun _ rest => begins_keyed hne hkey rest) ?_
  intro st m content kinds hst hcolumn hroom hcontent hm hrest hkinds
  exact leads_entries hne hkey hvalue hst hroom hcontent hm hrest hkinds

/-- and as an item, in a block that its first key starts. -/
theorem scansItem_map {step room : Nat} {entries : List (String × Form)} (hne : entries ≠ [])
    (hkey : ∀ e ∈ entries, IsKey e.1) (hvalue : ∀ e ∈ entries, ScansValue step room e.2) :
    ScansItem step (room + 1) (.map entries) := by
  intro st top m outer content kinds hst hcolumns htop hm hroom hcontent hrest hkinds
  rw [afterDash_map hne] at hrest
  have hend : Status.below kinds st.columns m content
      = Status.below (st.kinds ++ [.mapStart] ++ entryTokens entries)
        (nested st.columns st.column) m content := by
    have hclose : Status.below (st.kinds ++ [.mapStart] ++ entryTokens entries)
        (st.column :: top :: outer) m content
        = Status.below (st.kinds ++ [.mapStart] ++ entryTokens entries ++ [.blockEnd])
          (top :: outer) m content := below_cons (by omega)
    rw [hcolumns, nested_of_lt htop, hclose, hkinds]
    simp [tokens]
  rw [hend]
  refine leads_entries hne hkey hvalue hst ?_ hcontent (by omega) hrest ?_
  · have hlength := nested_length st.columns st.column
    omega
  · rw [hcolumns, opened_of_lt htop]

/-- **Written forms scan.** The text of a writable form scans to its tokens, as the value of a key
and, a list apart, as an item. -/
theorem scans_of_writable {step room : Nat} (hstep : 0 < step) {f : Form} (h : Writable room f) :
    ScansValue step room f ∧ ((∀ b l, f ≠ .list b l) → ScansItem step room f
      ∧ ∀ column rest, Begins (afterDash step column f ++ rest)) := by
  induction h with
  | @text room s h =>
    have hspelled := fun column => spells_scalar h step column
    have hscans := scans_scalar step room (.text s) rfl
      (fun column => by
        obtain ⟨word, hword, hscalar⟩ := hspelled (deeper step column)
        exact ⟨word, hword, by rw [afterKey, hscalar]⟩)
      (fun column => by
        obtain ⟨word, hword, hscalar⟩ := hspelled column
        exact ⟨word, hword, by rw [afterDash, hscalar]⟩)
    refine ⟨hscans.1, fun _ => ⟨hscans.2, fun column rest => ?_⟩⟩
    obtain ⟨word, hword, hscalar⟩ := hspelled column
    rw [afterDash, hscalar, List.append_assoc]
    exact begins_spelled hword _
  | @verbatim room s h =>
    have hspelled : Style.Spells s true s.toList := .plain h
    have hscans := scans_scalar step room (.verbatim s) rfl
      (fun _ => ⟨_, hspelled, rfl⟩) (fun _ => ⟨_, hspelled, rfl⟩)
    refine ⟨hscans.1, fun _ => ⟨hscans.2, fun column rest => ?_⟩⟩
    rw [afterDash, List.append_assoc]
    exact begins_spelled hspelled _
  | @inline room items h =>
    exact ⟨scansValue_brackets items h rfl fun _ => rfl, fun hnot => absurd rfl (hnot true items)⟩
  | @list room items hitem h ih =>
    refine ⟨?_, fun hnot => absurd rfl (hnot false items)⟩
    cases items with
    | nil => exact scansValue_brackets [] (by simp) rfl fun _ => rfl
    | cons item items =>
      refine scansValue_block .listStart (itemTokens (item :: items))
        (fun column => dashed step column (item :: items)) hstep (fun _ => rfl) rfl
        (fun _ rest => begins_dashed (by simp) rest) ?_
      intro st m content kinds hst hcolumn hroom hcontent hm hrest hkinds
      exact leads_items (by simp) (fun i hi => ((ih i hi).2 (hitem i hi)).1)
        (fun i hi => ((ih i hi).2 (hitem i hi)).2) hst hcolumn hroom hcontent hm hrest hkinds
  | @map room entries hne hkey h ih =>
    have hvalue : ∀ e ∈ entries, ScansValue step room e.2 := fun e he => (ih e he).1
    refine ⟨scansValue_map hstep hne hkey hvalue, fun _ =>
      ⟨scansItem_map hne hkey hvalue, fun column rest => ?_⟩⟩
    rw [afterDash_map hne]
    exact begins_keyed hne hkey rest

end

end Scanner

end RulePlan.Yaml
