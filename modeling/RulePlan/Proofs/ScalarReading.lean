import Mathlib.Algebra.Group.Nat.Defs
import Mathlib.Data.List.TakeWhile
import RulePlan.Yaml.Token.Plain
import RulePlan.Yaml.Token.Quoted
import RulePlan.Yaml.Writer

/-!
# RulePlan.Proofs.ScalarReading — written scalars read back

A text of a single line is written on one line, plain or in quotes. The reader takes it apart into
words and the blanks between them, so both readings are inductions on the words of the text. A plain
scalar is read until a line starts that is indented too little; nothing in it is taken for
structure, because the style would have been another one. In quotes every character is read by one
step, whatever its spelling (`Quoted.Spelling`), and the closing quote ends the scalar before
anything but a second quote. In double quotes any character has a spelling; elsewhere the style
asks for characters that print.
-/

namespace RulePlan

/-- A text of printing ASCII characters. -/
def Text.IsPrintableAscii (s : String) : Prop := ∀ c ∈ s.toList, 0x20 ≤ c.toNat ∧ c.toNat ≤ 0x7E

instance (s : String) : Decidable (Text.IsPrintableAscii s) :=
  decidable_of_iff (s.toList.all fun c => decide (0x20 ≤ c.toNat ∧ c.toNat ≤ 0x7E))
    (by simp only [List.all_eq_true, decide_eq_true_eq, Text.IsPrintableAscii])

/-- A text of a single line: without the breaks that are written as they are, and without the mark
at the start that changes how all else is written. -/
structure Text.IsSingleLine (s : String) : Prop where
  unbroken : ∀ c ∈ s.toList, c ≠ '\n' ∧ c.toNat ≠ 0x2028 ∧ c.toNat ≠ 0x2029
  unmarked : ∀ c ∈ s.toList.head?, c.toNat ≠ 0xFEFF

instance (s : String) : Decidable (Text.IsSingleLine s) :=
  decidable_of_iff ((s.toList.all fun c => c != '\n' && c.toNat != 0x2028 && c.toNat != 0x2029)
      ∧ s.toList.head?.all fun c => c.toNat != 0xFEFF)
    (by
      simp only [List.all_eq_true, Option.all_eq_true, Bool.and_eq_true, bne_iff_ne, and_assoc]
      exact ⟨fun h => ⟨h.1, h.2⟩, fun h => ⟨h.unbroken, h.unmarked⟩⟩)

theorem Text.IsPrintableAscii.singleLine {s : String} (h : Text.IsPrintableAscii s) :
    Text.IsSingleLine s := by
  have hchar : ∀ c ∈ s.toList, c ≠ '\n' ∧ c.toNat ≠ 0x2028 ∧ c.toNat ≠ 0x2029
      ∧ c.toNat ≠ 0xFEFF := by
    intro c hc
    have hrange := h c hc
    refine ⟨?_, by omega, by omega, by omega⟩
    rintro rfl
    exact absurd hrange (by decide)
  exact ⟨fun c hc => ⟨(hchar c hc).1, (hchar c hc).2.1, (hchar c hc).2.2.1⟩,
    fun c hc => (hchar c (List.mem_of_mem_head? hc)).2.2.2⟩

namespace Yaml

/-! ## Places -/

namespace Cursor

@[simp] theorem skip_size (c : Cursor) : c.skip.size = c.size := by
  unfold skip; split <;> rfl

@[simp] theorem skip_line (c : Cursor) : c.skip.line = c.line := by
  unfold skip; split <;> rfl

@[simp] theorem skips_size (n : Nat) (c : Cursor) : (skips n c).size = c.size := by
  induction n generalizing c with
  | zero => rfl
  | succ n ih => rw [skips, ih, skip_size]

@[simp] theorem skips_line (n : Nat) (c : Cursor) : (skips n c).line = c.line := by
  induction n generalizing c with
  | zero => rfl
  | succ n ih => rw [skips, ih, skip_line]

theorem skip_rest {c : Cursor} {d : Char} {rest : List Char} (h : c.rest = d :: rest) :
    c.skip.rest = rest := by
  unfold skip; rw [h]

theorem skip_column {c : Cursor} {d : Char} {rest : List Char} (h : c.rest = d :: rest) :
    c.skip.column = c.column + 1 := by
  unfold skip; rw [h]

theorem skip_index {c : Cursor} {d : Char} {rest : List Char} (h : c.rest = d :: rest) :
    c.skip.index = c.index + 1 := by
  unfold skip; rw [h]

theorem skips_append (m n : Nat) (c : Cursor) : skips n (skips m c) = skips (m + n) c := by
  induction m generalizing c with
  | zero => rw [skips, Nat.zero_add]
  | succ m ih => rw [skips, ih, Nat.add_right_comm, skips]

/-- Passing a word of the line leads to what follows it, as many columns further. -/
theorem skips_word {word rest : List Char} {c : Cursor} (h : c.rest = word ++ rest) :
    (skips word.length c).rest = rest ∧ (skips word.length c).column = c.column + word.length
      ∧ (skips word.length c).index = c.index + word.length := by
  induction word generalizing c with
  | nil => exact ⟨h, rfl, rfl⟩
  | cons d word ih =>
    obtain ⟨hrest, hcolumn, hindex⟩ := ih (c := c.skip) (skip_rest h)
    rw [skip_column h] at hcolumn
    rw [skip_index h] at hindex
    refine ⟨hrest, ?_, ?_⟩
    · rw [List.length_cons, skips, hcolumn]; omega
    · rw [List.length_cons, skips, hindex]; omega

theorem head_cons {c : Cursor} {d : Char} {rest : List Char} (h : c.rest = d :: rest) :
    c.head = d := by
  rw [head, h]; rfl

theorem char_cons {c : Cursor} {d e : Char} {rest : List Char} (h : c.rest = d :: e :: rest) :
    c.char 1 = e := by
  rw [char, h]; rfl

/-- Past the first column no document starts. -/
theorem atDocument_of_column {c : Cursor} (h : 0 < c.column) : c.atDocument = false := by
  have hcolumn : (c.column == 0) = false := by simpa using Nat.ne_of_gt h
  simp [atDocument, startsDocument, hcolumn]

theorem takeBreak_newline {c : Cursor} {rest : List Char} (h : c.rest = '\n' :: rest) :
    c.takeBreak = (['\n'], c.endLine 1 rest) := by
  unfold takeBreak; rw [h]; rfl

/-- The place after the end of a line and the indentation of the next one. -/
def nextLine (c : Cursor) (m : Nat) (content : List Char) : Cursor :=
  (c.endLine 1 (List.replicate m ' ' ++ content)).skips m

@[simp] theorem nextLine_rest (c : Cursor) (m : Nat) (content : List Char) :
    (c.nextLine m content).rest = content := by
  simpa [nextLine] using (skips_word (c := c.endLine 1 (List.replicate m ' ' ++ content)) rfl).1

@[simp] theorem nextLine_column (c : Cursor) (m : Nat) (content : List Char) :
    (c.nextLine m content).column = m := by
  simpa [nextLine, endLine]
    using (skips_word (c := c.endLine 1 (List.replicate m ' ' ++ content)) rfl).2.1

@[simp] theorem nextLine_size (c : Cursor) (m : Nat) (content : List Char) :
    (c.nextLine m content).size = c.size := by
  simp [nextLine, endLine]

end Cursor

/-! ## Characters -/

/-- A property of the ASCII characters, checked one by one. -/
theorem forall_ascii {P : Char → Prop} (h : ∀ n < 128, P (Char.ofNat n)) {c : Char}
    (hc : c.toNat < 128) : P c := by
  have hn := h c.toNat hc
  rwa [Char.ofNat_toNat] at hn

/-- A character that prints within a line. -/
def Prints (c : Char) : Prop := Style.isPrintable c = true ∧ isBreak c = false

instance : DecidablePred Prints := fun c => by unfold Prints; infer_instance

/-- Characters that print. -/
def Legible (cs : List Char) : Prop := ∀ c ∈ cs, Prints c

theorem Legible.of_append {a b : List Char} (h : Legible (a ++ b)) : Legible a ∧ Legible b :=
  ⟨fun c hc => h c (List.mem_append_left b hc), fun c hc => h c (List.mem_append_right a hc)⟩

/-- Of the characters that print only the space is a gap. -/
theorem isGap_eq_false {c : Char} (h : Prints c) (hspace : c ≠ ' ') : isGap c = false := by
  have htab : c ≠ '\t' := by
    rintro rfl
    exact absurd h.1 (by decide)
  have hend : c ≠ endMark := by
    rintro rfl
    exact absurd h.1 (by decide)
  simp [isGap, isBlank, endsLine, h.2, hspace, htab, hend]

theorem isBlank_eq_false {c : Char} (h : isGap c = false) : isBlank c = false := by
  rw [isGap, Bool.or_eq_false_iff] at h
  exact h.1

theorem isBreak_of_isGap {c : Char} (h : isGap c = false) : isBreak c = false := by
  rw [isGap, endsLine, Bool.or_eq_false_iff, Bool.or_eq_false_iff] at h
  exact h.2.1

/-- A text that is empty or starts with a character that is no gap. -/
def Solid (rest : List Char) : Prop := ∀ c ∈ rest.head?, isGap c = false

theorem solid_cons {c : Char} {rest : List Char} (h : isGap c = false) : Solid (c :: rest) := by
  intro d hd
  obtain rfl : c = d := by simpa using hd
  exact h

theorem Solid.head {c : Cursor} (h : Solid c.rest) :
    isBlank c.head = false ∧ isBreak c.head = false := by
  rw [Cursor.head, List.headD_eq_head?_getD]
  cases hrest : c.rest.head? with
  | none => exact ⟨by decide, by decide⟩
  | some d => exact ⟨isBlank_eq_false (h d hrest), isBreak_of_isGap (h d hrest)⟩

/-- A text has no space, or a first run of spaces with a text before and after it. -/
theorem spaces_cases (cs : List Char) :
    ' ' ∉ cs ∨ ∃ run k more, cs = run ++ (List.replicate (k + 1) ' ' ++ more) ∧ ' ' ∉ run
      ∧ more.head? ≠ some ' ' := by
  induction cs with
  | nil => exact .inl (by simp)
  | cons d cs ih =>
    by_cases hd : d = ' '
    · subst hd
      right
      obtain hnone | ⟨run, k, more, rfl, hrun, hmore⟩ := ih
      · exact ⟨[], 0, cs, rfl, by simp, fun h => hnone (List.mem_of_mem_head? h)⟩
      · cases run with
        | nil => exact ⟨[], k + 1, more, rfl, by simp, hmore⟩
        | cons e run =>
          refine ⟨[], 0, _, rfl, by simp, ?_⟩
          rintro h
          obtain rfl : e = ' ' := by simpa using h
          exact hrun List.mem_cons_self
    · obtain hnone | ⟨run, k, more, rfl, hrun, hmore⟩ := ih
      · exact .inl (by simp [hnone, Ne.symm hd])
      · exact .inr ⟨d :: run, k, more, rfl, by simp [hrun, Ne.symm hd], hmore⟩

/-! ## Gaps -/

namespace Gap

/-- Blanks are read up to the next character that is none. -/
theorem read_spaces (indent start : Nat) {rest : List Char} (hrest : Solid rest) {n fuel : Nat}
    {g : Gap} {c : Cursor} (h : c.rest = List.replicate n ' ' ++ rest) (hfuel : n < fuel) :
    read indent start fuel g c
      = .ok (if g.broken then g else { g with blanks := g.blanks ++ List.replicate n ' ' },
        c.skips n) := by
  induction n generalizing fuel g c with
  | zero =>
    obtain ⟨fuel, rfl⟩ := Nat.exists_eq_add_one_of_ne_zero (Nat.ne_of_gt hfuel)
    have hhead := Solid.head (c := c) (by rwa [h])
    rw [read, if_neg (by simp [hhead.1]), if_neg (by simp [hhead.2])]
    simp [Cursor.skips]
  | succ n ih =>
    obtain ⟨fuel, rfl⟩ := Nat.exists_eq_add_one_of_ne_zero (Nat.ne_of_gt (by omega : 0 < fuel))
    have hcons : c.rest = ' ' :: (List.replicate n ' ' ++ rest) := h
    have hhead : c.head = ' ' := Cursor.head_cons hcons
    rw [read, hhead, if_pos (by decide), if_neg (by simp),
      ih (Cursor.skip_rest hcons) (by omega), Cursor.skips, addBlank]
    cases hbroken : g.broken <;> simp [hbroken, List.replicate_succ]

/-- A line break with the indentation of the next line is read as one break. -/
theorem read_newline (indent start : Nat) {rest : List Char} (hrest : Solid rest) {m fuel : Nat}
    {c : Cursor} (h : c.rest = '\n' :: (List.replicate m ' ' ++ rest)) (hfuel : m + 1 < fuel) :
    read indent start fuel {} c
      = .ok ({ broken := true, first := ['\n'] }, c.nextLine m rest) := by
  obtain ⟨fuel, rfl⟩ := Nat.exists_eq_add_one_of_ne_zero (Nat.ne_of_gt (by omega : 0 < fuel))
  have hhead : c.head = '\n' := Cursor.head_cons h
  rw [read, hhead, if_neg (by decide), if_pos (by decide), Cursor.skipBreak,
    Cursor.takeBreak_newline h]
  exact read_spaces indent start hrest rfl (by omega)

end Gap

/-! ## Plain scalars -/

namespace Plain

/-- The text of a name: it starts with a letter or digit and has only characters of names. -/
structure IsName (cs : List Char) : Prop where
  head : ∃ c ∈ cs.head?, c.isAlphanum
  chars : ∀ c ∈ cs, isNameChar c

theorem toNat_of_isAlphanum {c : Char} (h : c.isAlphanum) : c.toNat < 128 := by
  change ((decide ('A'.val ≤ c.val ∧ c.val ≤ 'Z'.val)
    || decide ('a'.val ≤ c.val) && decide (c.val ≤ 'z'.val))
    || decide ('0'.val ≤ c.val) && decide (c.val ≤ '9'.val)) = true at h
  simp only [Bool.or_eq_true, Bool.and_eq_true, decide_eq_true_eq, UInt32.le_iff_toNat_le] at h
  have hc : c.toNat = c.val.toNat := rfl
  have hZ : 'Z'.val.toNat = 90 := rfl
  have hz : 'z'.val.toNat = 122 := rfl
  have h9 : '9'.val.toNat = 57 := rfl
  omega

theorem toNat_of_isNameChar {c : Char} (h : isNameChar c) : c.toNat < 128 := by
  simp only [isNameChar, Bool.or_eq_true, beq_iff_eq] at h
  obtain (h | rfl) | rfl := h
  · exact toNat_of_isAlphanum h
  · decide
  · decide

/-- Characters of names end no scalar. -/
theorem of_isNameChar {c : Char} (h : isNameChar c) :
    isGap c = false ∧ c ≠ ':' ∧ isSeparator c = false :=
  forall_ascii (P := fun c => isNameChar c → isGap c = false ∧ c ≠ ':' ∧ isSeparator c = false)
    (by decide +kernel) (toNat_of_isNameChar h) h

/-- What follows a name and is not part of it. -/
def Ends (inBrackets : Bool) (rest : List Char) : Prop := word inBrackets rest = []

theorem word_name {inBrackets : Bool} {name rest : List Char} (h : ∀ c ∈ name, isNameChar c)
    (hrest : Ends inBrackets rest) : word inBrackets (name ++ rest) = name := by
  induction name with
  | nil => exact hrest
  | cons c name ih =>
    obtain ⟨hgap, hcolon, hseparator⟩ := of_isNameChar (h c List.mem_cons_self)
    rw [List.cons_append, word, if_neg (by simp [hgap, hcolon, hseparator]),
      ih fun d hd => h d (List.mem_cons_of_mem c hd)]

/-- A name is read as a scalar up to what is neither part of it nor a gap. -/
theorem read_name {inBrackets : Bool} {indent : Nat} {name rest : List Char} {c : Cursor}
    (hname : IsName name) (h : c.rest = name ++ rest) (hrest : Ends inBrackets rest)
    (hdelimiter : Solid rest) (hdocument : c.atDocument = false) :
    read inBrackets indent c = .ok ⟨name, false, c.skips name.length⟩ := by
  obtain ⟨d, hd, halnum⟩ := hname.head
  obtain ⟨more, rfl⟩ := List.head?_eq_some_iff.1 hd
  have hhead : c.head = d := Cursor.head_cons h
  have hhash : d ≠ '#' := by
    rintro rfl
    exact absurd halnum (by decide)
  have hafter : (c.skips (d :: more).length).rest = rest := (Cursor.skips_word h).1
  have hstop := Solid.head (c := c.skips (d :: more).length) (by rwa [hafter])
  rw [read, words, h, word_name hname.chars hrest, hdocument, hhead]
  simp only [hhash, Bool.false_or, beq_iff_eq, List.isEmpty_cons, Bool.false_eq_true, or_self,
    Bool.or_eq_true, if_false]
  rw [if_pos (by rw [hstop.1, hstop.2]; rfl)]
  simp [Gap.text]

/-! ### Texts of several words -/

theorem hasStructure_tail {before d : Char} {cs : List Char}
    (h : Style.hasStructure before (d :: cs) = false) :
    (d = ':' → Style.blankNext cs = false) ∧ (d = '#' → isBlank before = false)
      ∧ Style.hasStructure d cs = false := by
  simp only [Style.hasStructure, Bool.or_eq_false_iff, Bool.and_eq_false_iff, beq_eq_false_iff_ne]
    at h
  obtain ⟨⟨hcolon, hhash⟩, htail⟩ := h
  refine ⟨fun hd => hcolon.resolve_left (by simpa using hd), fun hd => ?_, htail⟩
  exact (hhash.resolve_left (by simpa using hd)).1

theorem hasStructure_append {before d : Char} {cs more : List Char}
    (h : Style.hasStructure before (cs ++ d :: more) = false) :
    Style.hasStructure d more = false := by
  induction cs generalizing before with
  | nil => exact (hasStructure_tail h).2.2
  | cons e cs ih => exact ih (hasStructure_tail h).2.2

/-- A word ends before a space, or with the text at the end of its line. -/
theorem word_run {before : Char} {run more after : List Char} (hrun : Legible run)
    (hspace : ' ' ∉ run) (hmore : ∀ d ∈ more.head?, d = ' ')
    (h : Style.hasStructure before (run ++ more) = false) :
    word false (run ++ (more ++ '\n' :: after)) = run := by
  induction run generalizing before with
  | nil =>
    cases more with
    | nil =>
      rw [List.nil_append, List.nil_append, word, if_pos (by simp [isGap, endsLine, isBreak])]
    | cons d more =>
      obtain rfl : d = ' ' := hmore d rfl
      rw [List.nil_append, List.cons_append, word, if_pos (by simp [isGap, isBlank])]
  | cons d run ih =>
    obtain ⟨hcolon, -, htail⟩ := hasStructure_tail h
    have hrest : Legible run := fun e he => hrun e (List.mem_cons_of_mem d he)
    have hgap : ∀ e ∈ d :: run, isGap e = false := fun e he =>
      isGap_eq_false (hrun e he) fun hes => hspace (hes ▸ he)
    have hnext : d = ':' → isGap ((run ++ (more ++ '\n' :: after)).headD endMark) = false := by
      -- a colon stands inside of the word, so the next character is one of the word
      intro hd
      have hblank := hcolon hd
      cases run with
      | cons e run => exact hgap e (by simp)
      | nil =>
        cases more with
        | nil => simp [Style.blankNext] at hblank
        | cons e more =>
          obtain rfl : e = ' ' := hmore e rfl
          simp [Style.blankNext, isBlank] at hblank
    have hstay : (isGap d || (d == ':' && isGap ((run ++ (more ++ '\n' :: after)).headD endMark))
        || (false && isSeparator d)) = false := by
      by_cases hd : d = ':'
      · rw [hgap d List.mem_cons_self, hnext hd]; simp
      · simp [hgap d List.mem_cons_self, hd]
    rw [List.cons_append, word, hstay, if_neg (by simp),
      ih hrest (fun hs => hspace (List.mem_cons_of_mem d hs)) htail]

/-- A text that can stand in a plain scalar, from the start of one of its words on. -/
structure Wordy (before : Char) (cs : List Char) : Prop where
  legible : Legible cs
  ne_nil : cs ≠ []
  head_space : cs.head? ≠ some ' '
  head_hash : cs.head? ≠ some '#'
  last_space : cs.getLast? ≠ some ' '
  structureless : Style.hasStructure before cs = false

/-- What follows the spaces after a word is again the start of a word. -/
theorem Wordy.more {before : Char} {run more : List Char} {k : Nat}
    (h : Wordy before (run ++ (List.replicate (k + 1) ' ' ++ more)))
    (hmore : more.head? ≠ some ' ') : Wordy ' ' more := by
  have hsplit : run ++ (List.replicate (k + 1) ' ' ++ more)
      = (run ++ List.replicate k ' ') ++ ' ' :: more := by
    simp [List.replicate_succ']
  have hne : more ≠ [] := by
    rintro rfl
    apply h.last_space
    rw [hsplit, List.getLast?_concat]
  have hstructure : Style.hasStructure ' ' more = false :=
    hasStructure_append (hsplit ▸ h.structureless)
  refine ⟨h.legible.of_append.2.of_append.2, hne, hmore, ?_, ?_, hstructure⟩
  · intro hhash
    obtain ⟨tail, rfl⟩ := List.head?_eq_some_iff.1 hhash
    exact absurd ((hasStructure_tail hstructure).2.1 rfl) (by decide)
  · have hlast := h.last_space
    rwa [hsplit, List.append_cons, List.getLast?_append, List.getLast?_eq_some_getLast hne,
      Option.some_or, ← List.getLast?_eq_some_getLast hne] at hlast

/-- One word with the gap after it. -/
theorem words_succ {indent start fuel : Nat} {read run rest : List Char} {gap gap' : Gap}
    {c c' : Cursor} (h : c.rest = run ++ rest) (hword : word false c.rest = run) (hne : run ≠ [])
    (hhash : run.head? ≠ some '#') (hcolumn : 0 < c.column)
    (hstop : ∀ d ∈ rest.head?, isBlank d ∨ isBreak d) (hrest : rest ≠ [])
    (hgap : Gap.read indent start (c.size + 1) {} (c.skips run.length) = .ok (gap', c')) :
    words false indent start (fuel + 1) read gap c
      = if c'.column < indent then .ok ⟨read ++ gap.text ++ run, gap'.broken, c'⟩
        else words false indent start fuel (read ++ gap.text ++ run) gap' c' := by
  obtain ⟨d, run', rfl⟩ := List.exists_cons_of_ne_nil hne
  obtain ⟨e, rest', rfl⟩ := List.exists_cons_of_ne_nil hrest
  have hhead : (c.head == '#') = false := by
    rw [Cursor.head_cons h]
    simpa using hhash
  have hafter : (c.skips (d :: run').length).head = e := Cursor.head_cons (Cursor.skips_word h).1
  have hbreak : (!isBlank e && !isBreak e) = false := by
    obtain h | h := hstop e rfl <;> simp [h]
  rw [words, Cursor.atDocument_of_column hcolumn, hhead, hword]
  simp only [List.isEmpty_cons, Bool.or_self, Bool.false_eq_true, if_false, hafter, hbreak,
    Cursor.skips_size, hgap, Bool.not_false, Bool.true_and, decide_eq_true_eq]

section Words

variable {indent start m fuel : Nat} {before : Char} {read : List Char} {g : Gap} {c : Cursor}

/-- The last word of a text ends with its line. -/
theorem words_last {content cs : List Char} (hcontent : Solid content) (hm : m < indent)
    (hcs : Wordy before cs) (hnone : ' ' ∉ cs)
    (h : c.rest = cs ++ '\n' :: (List.replicate m ' ' ++ content)) (hsize : c.rest.length ≤ c.size)
    (hcolumn : 0 < c.column) :
    words false indent start (fuel + 1) read g c
      = .ok ⟨read ++ g.text ++ cs, true, (c.skips cs.length).nextLine m content⟩ := by
  have hword : word false c.rest = cs := by
    rw [h]
    have hend : ∀ d ∈ ([] : List Char).head?, d = ' ' := nofun
    exact word_run hcs.legible hnone hend (by simpa using hcs.structureless)
  have hfuel : m + 1 < c.size + 1 := by
    rw [h] at hsize
    simp only [List.length_append, List.length_cons, List.length_replicate] at hsize
    omega
  have hread := Gap.read_newline indent start hcontent (Cursor.skips_word h).1 hfuel
  rw [words_succ h hword hcs.ne_nil hcs.head_hash hcolumn (by simp [isBreak]) (by simp) hread,
    if_pos (by rw [Cursor.nextLine_column]; exact hm)]

/-- A word with spaces after it is read up to the start of the next word. -/
theorem words_next {run more after : List Char} {k : Nat}
    (hcs : Wordy before (run ++ (List.replicate (k + 1) ' ' ++ more))) (hrun : ' ' ∉ run)
    (hmore : more.head? ≠ some ' ')
    (h : c.rest = run ++ (List.replicate (k + 1) ' ' ++ (more ++ '\n' :: after)))
    (hsize : c.rest.length ≤ c.size) (hcolumn : 0 < c.column) (hindent : indent ≤ c.column) :
    words false indent start (fuel + 1) read g c
      = words false indent start fuel (read ++ g.text ++ run)
        { blanks := List.replicate (k + 1) ' ' } ((c.skips run.length).skips (k + 1)) := by
  have hnext : Wordy ' ' more := hcs.more hmore
  have hne : run ≠ [] := by
    rintro rfl
    exact hcs.head_space rfl
  have hhash : run.head? ≠ some '#' := by
    obtain ⟨d, run, rfl⟩ := List.exists_cons_of_ne_nil hne
    exact hcs.head_hash
  have hword : word false c.rest = run := by
    rw [h, ← List.append_assoc (List.replicate (k + 1) ' ')]
    exact word_run hcs.legible.of_append.1 hrun (by simp [List.replicate_succ]) hcs.structureless
  have hsolid : Solid (more ++ '\n' :: after) := by
    obtain ⟨d, more', rfl⟩ := List.exists_cons_of_ne_nil hnext.ne_nil
    have hspace : d ≠ ' ' := fun hd => hnext.head_space (by rw [hd]; rfl)
    exact solid_cons (isGap_eq_false (hnext.legible d List.mem_cons_self) hspace)
  obtain ⟨hafter, hafterColumn, -⟩ := Cursor.skips_word h
  have hspaces := (Cursor.skips_word hafter).2.1
  rw [List.length_replicate] at hspaces
  have hread := Gap.read_spaces indent start hsolid (g := {}) hafter
    (show k + 1 < c.size + 1 by
      rw [h] at hsize
      simp only [List.length_append, List.length_replicate] at hsize
      have := List.length_pos_iff.2 hnext.ne_nil
      omega)
  rw [words_succ h hword hne hhash hcolumn (by simp [List.replicate_succ, isBlank]) (by simp) hread,
    if_neg (by rw [hspaces, hafterColumn]; omega)]
  rfl

/-- **Plain texts read back.** From the start of a word on, the words of a text are read with the
blanks between them, up to a line that is indented too little. -/
theorem words_text {content : List Char} (hcontent : Solid content) (hm : m < indent)
    {cs : List Char} (hcs : Wordy before cs) (hgap : g.broken = false)
    (h : c.rest = cs ++ '\n' :: (List.replicate m ' ' ++ content)) (hsize : c.rest.length ≤ c.size)
    (hcolumn : 0 < c.column) (hindent : indent ≤ c.column) (hfuel : cs.length < fuel) :
    words false indent start fuel read g c
      = .ok ⟨read ++ g.text ++ cs, true, (c.skips cs.length).nextLine m content⟩ := by
  induction hlength : cs.length using Nat.strong_induction_on
    generalizing before cs fuel read g c with
  | _ n ih =>
    subst hlength
    obtain ⟨fuel, rfl⟩ := Nat.exists_eq_add_one_of_ne_zero (Nat.ne_of_gt (by omega : 0 < fuel))
    obtain hnone | ⟨run, k, more, rfl, hrun, hmore⟩ := spaces_cases cs
    · exact words_last hcontent hm hcs hnone h hsize hcolumn
    · have hrest : c.rest = run ++ (List.replicate (k + 1) ' '
          ++ (more ++ '\n' :: (List.replicate m ' ' ++ content))) := by
        rw [h]
        simp only [List.append_assoc]
      obtain ⟨hafter, hafterColumn, -⟩ := Cursor.skips_word hrest
      have hspaces := Cursor.skips_word hafter
      rw [List.length_replicate] at hspaces
      have hshorter : more.length < (run ++ (List.replicate (k + 1) ' ' ++ more)).length := by
        simp only [List.length_append, List.length_replicate]
        omega
      have hlater : ((c.skips run.length).skips (k + 1)).rest.length
          ≤ ((c.skips run.length).skips (k + 1)).size := by
        rw [hspaces.1, Cursor.skips_size, Cursor.skips_size]
        rw [hrest] at hsize
        simp only [List.length_append] at hsize ⊢
        omega
      rw [words_next hcs hrun hmore hrest hsize hcolumn hindent,
        ih more.length hshorter (hcs.more hmore) (by simp) hspaces.1 hlater
          (by rw [hspaces.2.1, hafterColumn]; omega) (by rw [hspaces.2.1, hafterColumn]; omega)
          (by omega) rfl, Cursor.skips_append, Cursor.skips_append]
      simp [Gap.text, List.append_assoc, Nat.add_assoc]

end Words

/-- A plain scalar is read up to a line that is indented too little. -/
theorem read_text {indent m : Nat} {content : List Char} (hcontent : Solid content)
    (hm : m < indent) {before : Char} {cs : List Char} (hcs : Wordy before cs) {c : Cursor}
    (h : c.rest = cs ++ '\n' :: (List.replicate m ' ' ++ content)) (hsize : c.rest.length ≤ c.size)
    (hcolumn : 0 < c.column) (hindent : indent ≤ c.column) :
    read false indent c = .ok ⟨cs, true, (c.skips cs.length).nextLine m content⟩ := by
  have hlength : cs.length < c.size + 1 := by
    rw [h, List.length_append] at hsize
    omega
  exact words_text hcontent hm hcs (g := {}) rfl h hsize hcolumn hindent hlength

end Plain

/-! ## Scalars in quotes -/

namespace Quoted

/-- A way to spell characters of a class between quotes: the space stands for itself, and every
other character is read by one step. -/
structure Spelling (P : Char → Prop) (quote : Char) (spell : Char → List Char) : Prop where
  quote_solid : isGap quote = false
  space : spell ' ' = [' ']
  legible : ∀ {d : Char}, P d → Legible (spell d)
  solid : ∀ {d : Char}, P d → d ≠ ' ' → ∀ rest, Solid (spell d ++ rest)
  ne_nil : ∀ d, spell d ≠ []
  step : ∀ {d : Char}, P d → d ≠ ' ' →
    ∀ {start fuel : Nat} {before rest : List Char} {c : Cursor}, c.rest = spell d ++ rest →
      word quote start (fuel + 1) before c
        = word quote start fuel (d :: before) (c.skips (spell d).length)

/-- The spelling of a character in single quotes. -/
def singly (c : Char) : List Char := if c = '\x27' then ['\x27', '\x27'] else [c]

theorem spelling_singly : Spelling Prints '\x27' singly where
  quote_solid := by decide
  space := by decide
  legible := by
    intro d hd c hc
    unfold singly at hc
    split at hc
    · obtain rfl : c = '\x27' := by simpa using hc
      decide
    · obtain rfl : c = d := by simpa using hc
      exact hd
  solid := by
    intro d hd hspace rest
    unfold singly
    split
    · exact solid_cons (by decide)
    · exact solid_cons (isGap_eq_false hd hspace)
  ne_nil := by
    intro d
    unfold singly
    split <;> simp
  step := by
    intro d hd hspace start fuel before rest c h
    by_cases hquote : d = '\x27'
    · rw [singly, if_pos hquote] at h ⊢
      rw [word, Cursor.head_cons h, if_neg (by decide), if_pos (by decide),
        if_pos (by rw [Cursor.char_cons h]; decide), hquote]
      rfl
    · rw [singly, if_neg hquote] at h ⊢
      rw [word, Cursor.head_cons h, if_neg (by simp [isGap_eq_false hd hspace]),
        if_neg (by simpa using hquote), if_neg (by simp)]
      rfl

/-! ### Escapes -/

/-- A letter after a backslash is read as the character it stands for. -/
theorem named?_of_letter? {c l : Char} (h : Style.letter? c = some l) :
    named? l = some c ∧ Prints l := by
  have hchar {n : Nat} (hn : c.toNat = n) : c = Char.ofNat n := by rw [← hn, Char.ofNat_toNat]
  unfold Style.letter? at h
  split at h
  case h_16 => cases h
  all_goals
    rename_i hn
    obtain rfl := hchar hn
    obtain rfl := Option.some.inj h
    exact ⟨rfl, by decide⟩

theorem length_hex (width n : Nat) : (Style.hex width n).length = width := by
  induction width generalizing n with
  | zero => rfl
  | succ width ih => rw [Style.hex, List.length_append, ih, List.length_singleton]

theorem hexDigit_cases : ∀ d < 16, Prints (Style.hexDigit d)
    ∧ digit? (Style.hexDigit d) = some d := by
  decide

theorem legible_hex (width n : Nat) : Legible (Style.hex width n) := by
  induction width generalizing n with
  | zero => exact fun c hc => absurd hc List.not_mem_nil
  | succ width ih =>
    intro c hc
    rcases List.mem_append.1 hc with hc | hc
    · exact ih _ c hc
    · rw [List.mem_singleton.1 hc]
      exact (hexDigit_cases _ (Nat.mod_lt n (by decide))).1

theorem hexValue?_hex {width n : Nat} (h : n < 16 ^ width) :
    hexValue? (Style.hex width n) = some n := by
  induction width generalizing n with
  | zero =>
    obtain rfl : n = 0 := by
      rw [Nat.pow_zero] at h
      omega
    rfl
  | succ width ih =>
    have hrest : n / 16 < 16 ^ width := by
      rw [Nat.pow_succ] at h
      omega
    have hread := ih hrest
    unfold hexValue? at hread ⊢
    rw [Style.hex, List.foldlM_append, hread]
    simp only [Option.bind_eq_bind, Option.bind_some, List.foldlM_cons, List.foldlM_nil,
      (hexDigit_cases _ (Nat.mod_lt n (by decide))).2, Option.map_some, Nat.div_add_mod,
      Option.pure_def]

theorem escape_of_code {d mark : Char} {width : Nat} (hmark : named? mark = none)
    (hsize : codeSize? mark = some width) (hd : d.toNat < 16 ^ width) {start : Nat} {c : Cursor}
    {rest : List Char} (h : c.rest = '\\' :: mark :: (Style.hex width d.toNat ++ rest)) :
    escape start c = .ok (d, c.skips (width + 2)) := by
  have hchar : c.char 1 = mark := Cursor.char_cons h
  have hword : c.rest = ['\\', mark] ++ (Style.hex width d.toNat ++ rest) := h
  have hafter : (c.skips 2).rest = Style.hex width d.toNat ++ rest := (Cursor.skips_word hword).1
  have htake : (Style.hex width d.toNat ++ rest).take width = Style.hex width d.toNat := by
    rw [List.take_append_of_le_length (length_hex _ _).ge,
      List.take_of_length_le (length_hex _ _).le]
  have hvalid : d.toNat.isValidChar := d.valid
  unfold escape
  simp only [hchar, hmark, hsize, hafter, htake, hexValue?_hex hd, length_hex, lt_irrefl, if_false,
    hvalid, if_true, Char.ofNat_toNat, Cursor.skips_append, Nat.add_comm 2]

/-- In double quotes a character stands for itself, or it follows a backslash by a letter or by its
number, and is read from there. -/
theorem escape_cases (d : Char) :
    Style.escape false d = [d] ∧ Prints d ∧ d ≠ '\x22' ∧ d ≠ '\\'
      ∨ ∃ mark more, Style.escape false d = '\\' :: mark :: more ∧ Prints mark ∧ Legible more
        ∧ ∀ {start : Nat} {c : Cursor} {rest : List Char}, c.rest = '\\' :: mark :: (more ++ rest) →
          escape start c = .ok (d, c.skips (more.length + 2)) := by
  by_cases hitself : (Style.isPrintable d && !isBreak d && d != '\x22' && d != '\\') = true
  · left
    have hescape : Style.escape false d = [d] := by
      rw [Style.escape, Bool.not_false, Bool.true_and, if_pos hitself]
    simp only [Bool.and_eq_true, Bool.not_eq_true', bne_iff_ne] at hitself
    obtain ⟨⟨⟨hprints, hbreak⟩, hquote⟩, hbackslash⟩ := hitself
    exact ⟨hescape, ⟨hprints, hbreak⟩, hquote, hbackslash⟩
  · right
    unfold Style.escape
    rw [Bool.not_false, Bool.true_and, if_neg hitself]
    cases hletter : Style.letter? d with
    | some l =>
      obtain ⟨hname, hprints⟩ := named?_of_letter? hletter
      refine ⟨l, [], rfl, hprints, fun c hc => absurd hc List.not_mem_nil, fun h => ?_⟩
      unfold escape
      rw [Cursor.char_cons h, hname]
      rfl
    | none =>
      have hlarge : d.toNat < 16 ^ 8 := by
        have := d.valid
        unfold UInt32.isValidChar Nat.isValidChar at this
        have hv : d.val.toNat = d.toNat := rfl
        omega
      simp only
      split_ifs with htwo hfour
      · refine ⟨'x', _, rfl, by decide, legible_hex 2 _, fun h => ?_⟩
        rw [length_hex]
        exact escape_of_code rfl rfl (by omega) h
      · refine ⟨'u', _, rfl, by decide, legible_hex 4 _, fun h => ?_⟩
        rw [length_hex]
        exact escape_of_code rfl rfl (by omega) h
      · refine ⟨'U', _, rfl, by decide, legible_hex 8 _, fun h => ?_⟩
        rw [length_hex]
        exact escape_of_code rfl rfl hlarge h

/-- In double quotes all characters have a spelling. -/
theorem spelling_escape : Spelling (fun _ => True) '\x22' (Style.escape false) where
  quote_solid := by decide
  space := by decide
  legible := by
    intro d _ c hc
    rcases escape_cases d with ⟨hspell, hprints, -⟩ | ⟨mark, more, hspell, hmark, hmore, -⟩
    · rw [hspell, List.mem_singleton] at hc
      exact hc ▸ hprints
    · rw [hspell, List.mem_cons, List.mem_cons] at hc
      rcases hc with rfl | rfl | hc
      · decide
      · exact hmark
      · exact hmore c hc
  solid := by
    intro d _ hspace rest
    rcases escape_cases d with ⟨hspell, hprints, -⟩ | ⟨mark, more, hspell, -⟩
    · rw [hspell]
      exact solid_cons (isGap_eq_false hprints hspace)
    · rw [hspell]
      exact solid_cons (by decide)
  ne_nil := by
    intro d
    rcases escape_cases d with ⟨hspell, -⟩ | ⟨mark, more, hspell, -⟩ <;> simp [hspell]
  step := by
    intro d _ hspace start fuel before rest c h
    rcases escape_cases d with ⟨hspell, hprints, hquote, hbackslash⟩
      | ⟨mark, more, hspell, hmark, -, hread⟩
    · rw [hspell] at h ⊢
      rw [word, Cursor.head_cons h, if_neg (by simp [isGap_eq_false hprints hspace]),
        if_neg (by simpa using hquote), if_neg (by simpa using hbackslash)]
      rfl
    · rw [hspell] at h ⊢
      rw [word, Cursor.head_cons h, if_neg (by decide), if_neg (by decide), if_pos (by decide),
        if_neg (by rw [Cursor.char_cons h, hmark.2]; simp), hread h]
      rfl

section

variable {P : Char → Prop} {quote : Char} {spell : Char → List Char} {start : Nat}

/-- What ends a run of characters in quotes: a space, or a quote with no second one after it. -/
inductive Stops (quote : Char) : List Char → Prop
  | space (rest : List Char) : Stops quote (' ' :: rest)
  | quote {rest : List Char} (h : ∀ d ∈ rest.head?, d ≠ quote) (hend : endMark ≠ quote) :
    Stops quote (quote :: rest)

theorem word_stops (hs : Spelling P quote spell) {fuel : Nat} {before : List Char} {c : Cursor}
    (h : Stops quote c.rest) : word quote start (fuel + 1) before c = .ok (before, false, c) := by
  rw [word]
  cases hrest : c.rest with
  | nil => rw [hrest] at h; cases h
  | cons d rest =>
    rw [hrest] at h
    cases h with
    | space => rw [Cursor.head_cons hrest, if_pos (by decide)]
    | quote hnext hend =>
      have hchar : (c.char 1 == quote) = false := by
        rw [Cursor.char, hrest, List.getD_cons_succ]
        cases rest with
        | nil => simpa using hend
        | cons e rest => simpa using hnext e rfl
      rw [Cursor.head_cons hrest, if_neg (by simp [hs.quote_solid]), if_pos (by simp),
        if_neg (by simp [hchar])]

/-- A run of characters without a space is read as it is. -/
theorem word_run (hs : Spelling P quote spell) {run rest : List Char} (hrun : ∀ c ∈ run, P c)
    (hspace : ' ' ∉ run) (hrest : Stops quote rest) {fuel : Nat} {before : List Char} {c : Cursor}
    (h : c.rest = run.flatMap spell ++ rest) (hfuel : run.length < fuel) :
    word quote start fuel before c
      = .ok (run.reverse ++ before, false, c.skips (run.flatMap spell).length) := by
  induction run generalizing fuel before c with
  | nil =>
    obtain ⟨fuel, rfl⟩ := Nat.exists_eq_add_one_of_ne_zero (Nat.ne_of_gt hfuel)
    rw [word_stops hs (by rw [h]; exact hrest)]
    rfl
  | cons d run ih =>
    obtain ⟨fuel, rfl⟩ := Nat.exists_eq_add_one_of_ne_zero (Nat.ne_of_gt (by omega : 0 < fuel))
    have hd : d ≠ ' ' := fun e => hspace (e ▸ List.mem_cons_self)
    rw [List.flatMap_cons, List.append_assoc] at h
    rw [hs.step (hrun d List.mem_cons_self) hd h,
      ih (fun e he => hrun e (List.mem_cons_of_mem d he))
        (fun hmem => hspace (List.mem_cons_of_mem d hmem)) (Cursor.skips_word h).1
        (by simpa using hfuel), Cursor.skips_append]
    simp

theorem flatMap_replicate_space (hs : Spelling P quote spell) (k : Nat) :
    (List.replicate k ' ').flatMap spell = List.replicate k ' ' := by
  induction k with
  | zero => rfl
  | succ k ih => rw [List.replicate_succ, List.flatMap_cons, ih, hs.space]; rfl

theorem solid_flatMap (hs : Spelling P quote spell) {cs : List Char} (hcs : ∀ c ∈ cs, P c)
    (hspace : cs.head? ≠ some ' ') (rest : List Char) :
    Solid (cs.flatMap spell ++ quote :: rest) := by
  cases cs with
  | nil => exact solid_cons hs.quote_solid
  | cons d cs =>
    rw [List.flatMap_cons, List.append_assoc]
    exact hs.solid (hcs d List.mem_cons_self) (fun hd => hspace (by rw [hd]; rfl)) _

theorem length_le_flatMap (hs : Spelling P quote spell) (cs : List Char) :
    cs.length ≤ (cs.flatMap spell).length := by
  induction cs with
  | nil => exact Nat.le_refl 0
  | cons d cs ih =>
    have hd := List.length_pos_iff.2 (hs.ne_nil d)
    rw [List.flatMap_cons, List.length_cons, List.length_append]
    omega

/-- A run without spaces in front of the closing quote ends the inside of a scalar. -/
theorem inside_last (hs : Spelling P quote spell) {cs rest : List Char} (hcs : ∀ c ∈ cs, P c)
    (hspace : ' ' ∉ cs) (hrest : Stops quote (quote :: rest)) {fuel : Nat} {before : List Char}
    {c : Cursor} (h : c.rest = cs.flatMap spell ++ quote :: rest) (hcolumn : 0 < c.column)
    (hsize : (cs.flatMap spell).length < c.size) :
    inside quote start (fuel + 1) before c
      = .ok (before.reverse ++ cs, c.skips ((cs.flatMap spell).length + 1)) := by
  have hend : c.isEnd = false := by
    rw [Cursor.isEnd, h]
    simp
  have hhead : (c.skips (cs.flatMap spell).length).head = quote :=
    Cursor.head_cons (Cursor.skips_word h).1
  rw [inside, Cursor.atDocument_of_column hcolumn, hend, if_neg (by simp), if_neg (by simp),
    word_run hs hcs hspace hrest h (by have := length_le_flatMap hs cs; omega)]
  simp only [hhead, beq_self_eq_true, if_true]
  rw [← Cursor.skips_append]
  simp [Cursor.skips]

/-- A run without spaces and the spaces after it are read, and the rest is left to what follows. -/
theorem inside_next (hs : Spelling P quote spell) {run more rest : List Char} {k : Nat}
    (hrun : ∀ c ∈ run, P c) (hspace : ' ' ∉ run) (hmore : Solid (more ++ quote :: rest))
    {fuel : Nat} {before : List Char} {c : Cursor}
    (h : c.rest = run.flatMap spell ++ (List.replicate (k + 1) ' ' ++ (more ++ quote :: rest)))
    (hcolumn : 0 < c.column) (hsize : (run.flatMap spell).length + (k + 1) ≤ c.size) :
    inside quote start (fuel + 1) before c
      = inside quote start fuel ((run ++ List.replicate (k + 1) ' ').reverse ++ before)
        ((c.skips (run.flatMap spell).length).skips (k + 1)) := by
  have hend : c.isEnd = false := by
    rw [Cursor.isEnd, h]
    simp
  have hstops : Stops quote (List.replicate (k + 1) ' ' ++ (more ++ quote :: rest)) := .space _
  have hafter := (Cursor.skips_word h).1
  have hhead : (c.skips (run.flatMap spell).length).head = ' ' := Cursor.head_cons hafter
  have hquote : (' ' == quote) = false := by
    have hsolid := hs.quote_solid
    rw [beq_eq_false_iff_ne]
    rintro rfl
    exact absurd hsolid (by decide)
  have hread := Gap.read_spaces 0 start hmore (g := {}) hafter
    (show k + 1 < c.size + 1 by omega)
  rw [inside, Cursor.atDocument_of_column hcolumn, hend, if_neg (by simp), if_neg (by simp),
    word_run hs hrun hspace hstops h (by have := length_le_flatMap hs run; omega)]
  simp only [hhead, hquote, Bool.false_eq_true, if_false, Cursor.skips_size, hread]
  simp [Gap.text]

/-- The inside of a scalar in quotes is read up to the closing quote. -/
theorem inside_text (hs : Spelling P quote spell) {cs rest : List Char} (hcs : ∀ c ∈ cs, P c)
    (hrest : Stops quote (quote :: rest)) {fuel : Nat} {before : List Char} {c : Cursor}
    (h : c.rest = cs.flatMap spell ++ quote :: rest) (hcolumn : 0 < c.column)
    (hsize : c.rest.length ≤ c.size) (hfuel : cs.length < fuel) :
    inside quote start fuel before c
      = .ok (before.reverse ++ cs, c.skips ((cs.flatMap spell).length + 1)) := by
  induction hlength : cs.length using Nat.strong_induction_on generalizing cs fuel before c with
  | _ n ih =>
    subst hlength
    obtain ⟨fuel, rfl⟩ := Nat.exists_eq_add_one_of_ne_zero (Nat.ne_of_gt (by omega : 0 < fuel))
    have hlong : (cs.flatMap spell).length < c.size := by
      rw [h] at hsize
      simp only [List.length_append, List.length_cons] at hsize
      omega
    obtain hnone | ⟨run, k, more, rfl, hrun, hmore⟩ := spaces_cases cs
    · -- no space is left: the closing quote follows
      exact inside_last hs hcs hnone hrest h hcolumn hlong
    · -- a run, spaces, and the start of the next run
      rw [List.flatMap_append, List.flatMap_append, flatMap_replicate_space hs] at h hlong ⊢
      simp only [List.append_assoc] at h
      simp only [List.length_append, List.length_replicate] at hlong hfuel ih ⊢
      simp only [List.forall_mem_append] at hcs
      obtain ⟨hrunClass, -, hclass⟩ := hcs
      obtain ⟨hafter, hafterColumn, -⟩ := Cursor.skips_word h
      obtain ⟨hnext, hnextColumn, -⟩ := Cursor.skips_word hafter
      rw [List.length_replicate] at hnext hnextColumn
      rw [inside_next hs hrunClass hrun (solid_flatMap hs hclass hmore rest) h hcolumn (by omega),
        ih more.length (by omega) hclass hnext (by rw [hnextColumn, hafterColumn]; omega)
        (by
          rw [hnext, Cursor.skips_size, Cursor.skips_size]
          rw [h] at hsize
          simp only [List.length_append, List.length_replicate] at hsize ⊢
          omega)
        (by omega) rfl, Cursor.skips_append, Cursor.skips_append]
      simp [Nat.add_assoc]

/-- **Texts in quotes read back.** -/
theorem read_text (hs : Spelling P quote spell) {s : String} {rest : List Char}
    (hcs : ∀ c ∈ s.toList, P c) (hrest : Stops quote (quote :: rest)) {c : Cursor}
    (h : c.rest = quote :: (s.toList.flatMap spell ++ quote :: rest))
    (hsize : c.rest.length ≤ c.size) :
    read c = .ok (s, c.skips (quote :: (s.toList.flatMap spell ++ [quote])).length) := by
  have hskip : c.skip.rest = s.toList.flatMap spell ++ quote :: rest := Cursor.skip_rest h
  have hlength := length_le_flatMap hs s.toList
  rw [h] at hsize
  simp only [List.length_cons, List.length_append] at hsize
  rw [read, Cursor.head_cons h,
    inside_text hs hcs hrest hskip (by rw [Cursor.skip_column h]; omega)
      (by
        rw [hskip, Cursor.skip_size]
        simp only [List.length_cons, List.length_append]
        omega)
      (by omega)]
  simp [Except.map, Cursor.skips]

end

end Quoted

/-! ## How texts are spelled -/

namespace Style

/-- A text that stands without quotes: a sequence of words whose first character is not taken for a
sign of structure. -/
structure Unquoted (cs : List Char) : Prop extends Plain.Wordy ' ' cs where
  head_indicator : ∀ c ∈ cs.head?, isIndicator c = false
  head_sign : ∀ c rest, cs = c :: rest → c = '-' ∨ c = '?' ∨ c = ':' → blankNext rest = false

/-- The spellings of a text on one line, and whether it stands without quotes. -/
inductive Spells (s : String) : (plain : Bool) → List Char → Prop
  | plain (h : Unquoted s.toList) : Spells s true s.toList
  | quoted {P : Char → Prop} {quote : Char} {spell : Char → List Char}
    (hs : Quoted.Spelling P quote spell) (hclass : ∀ c ∈ s.toList, P c)
    (hquote : quote = '\x27' ∨ quote = '\x22') :
    Spells s false (quote :: (s.toList.flatMap spell ++ [quote]))

theorem Spells.legible {s : String} {plain : Bool} {word : List Char} (h : Spells s plain word) :
    Legible word := by
  cases h with
  | plain h => exact h.legible
  | @quoted P quote spell hspelling hclass hquote =>
    have hsign : Prints quote := by
      obtain rfl | rfl := hquote <;> decide
    intro c hc
    simp only [List.mem_cons, List.mem_append, List.mem_flatMap, List.not_mem_nil, or_false] at hc
    obtain rfl | ⟨d, hd, hmem⟩ | rfl := hc
    · exact hsign
    · exact hspelling.legible (hclass d hd) c hmem
    · exact hsign

/-- What needs no escapes prints, but for tabs. -/
theorem isPrintable_of_not_hasSpecial {cs : List Char} (htab : cs.contains '\t' = false)
    (h : hasSpecial cs = false) : ∀ c ∈ cs, isPrintable c = true := by
  intro c hc
  have hne : c ≠ '\t' := by
    rintro rfl
    simp [hc] at htab
  have hspecial := List.any_eq_false.1 h c hc
  simpa [hne] using hspecial

theorem legible_of_allowsPlain {cs : List Char} (h : allowsPlain cs = true) : Legible cs := by
  simp only [allowsPlain, Bool.and_eq_true, Bool.not_eq_true'] at h
  obtain ⟨⟨⟨⟨-, hbreak⟩, htab⟩, hspecial⟩, -⟩ := h
  exact fun c hc => ⟨isPrintable_of_not_hasSpecial htab hspecial c hc,
    by simpa using List.any_eq_false.1 hbreak c hc⟩

theorem legible_of_allowsSingle {s : String} (hs : Text.IsSingleLine s)
    (h : allowsSingle s.toList = true) : Legible s.toList := by
  simp only [allowsSingle, Bool.and_eq_true, Bool.not_eq_true'] at h
  obtain ⟨⟨-, htab⟩, hspecial⟩ := h
  intro c hc
  have hprintable := isPrintable_of_not_hasSpecial htab hspecial c hc
  obtain ⟨hnewline, hlines, hparagraphs⟩ := hs.unbroken c hc
  refine ⟨hprintable, ?_⟩
  have hreturn : c ≠ '\r' := by
    rintro rfl
    exact absurd hprintable (by decide)
  have hnext : c.toNat ≠ 0x85 := by
    intro hn
    simp [isPrintable, hn] at hprintable
  simp [isBreak, hnewline, hreturn, hnext, hlines, hparagraphs]

/-- A text that the style leaves without quotes can stand so. -/
theorem unquoted_of_allowsPlain {cs : List Char} (hne : cs ≠ []) (h : allowsPlain cs = true) :
    Unquoted cs := by
  have hcs := legible_of_allowsPlain h
  obtain ⟨d, rest, rfl⟩ := List.exists_cons_of_ne_nil hne
  simp only [allowsPlain, touches, looksStructured, Bool.and_eq_true, Bool.not_eq_true',
    Bool.or_eq_false_iff] at h
  obtain ⟨⟨⟨⟨⟨hhead, hlast⟩, -⟩, -⟩, -⟩, ⟨⟨⟨-, hindicator⟩, hsign⟩, hstructure⟩⟩ := h
  have hsigned : d = '-' ∨ d = '?' ∨ d = ':' → blankNext rest = false := by
    intro hd
    have hbool : (d == '-' || d == '?' || d == ':') = true := by
      simpa [or_assoc] using hd
    simpa [hbool] using hsign
  have hhash : d ≠ '#' := by
    rintro rfl
    exact absurd hindicator (by decide)
  refine ⟨⟨hcs, hne, by simpa using hhead, by simpa using hhash, ?_, ?_⟩, ?_, ?_⟩
  · rw [List.getLast?_eq_some_getLast hne] at hlast ⊢
    simpa using hlast
  · rw [hasStructure, hstructure]
    by_cases hcolon : d = ':'
    · simp [hcolon, hsigned (.inr (.inr hcolon))]
    · simp [hcolon, hhash]
  · intro c hc
    obtain rfl : d = c := by simpa using hc
    exact hindicator
  · rintro c more hcons
    obtain ⟨rfl, rfl⟩ := List.cons.inj hcons
    exact hsigned

end Style

namespace Form

theorem indented_legible {column : Nat} {cs : List Char} (h : ∀ c ∈ cs, isBreak c = false) :
    indented column false cs = cs := by
  induction cs with
  | nil => rfl
  | cons c cs ih =>
    rw [indented, if_neg (by simp [h c List.mem_cons_self]),
      ih fun d hd => h d (List.mem_cons_of_mem c hd)]
    rfl

theorem endLine_concat {s : List Char} {c : Char} (h : isBreak c = false) :
    endLine (s ++ [c]) = s ++ [c] ++ ['\n'] := by
  rw [endLine, List.getLast?_concat, if_neg (by simp [h])]

end Form

namespace Style

theorem allowsSingle_of_ofText {s : String} (h : ofText s = .single) :
    allowsSingle s.toList = true := by
  simp only [ofText] at h
  split at h
  · split at h <;> cases h
  · split at h
    · cases h
    · split at h
      · cases h
      · split at h
        · assumption
        · cases h

theorem allowsPlain_of_ofText {s : String} (h : ofText s = .plain) :
    Scalar.readsAsText s = true ∧ allowsPlain s.toList = true := by
  simp only [ofText] at h
  split at h
  · split at h <;> cases h
  · split at h
    · cases h
    · split at h
      · rename_i hreads hplain
        exact ⟨by simpa using hreads, hplain⟩
      · split at h <;> cases h

theorem ofText_ne_literal {s : String} (h : Text.IsSingleLine s) : ofText s ≠ .literal := by
  have hnewline : '\n' ∉ s.toList := fun hmem => (h.unbroken '\n' hmem).1 rfl
  intro hstyle
  simp only [ofText] at hstyle
  rw [if_neg (by simpa using hnewline)] at hstyle
  split at hstyle
  · cases hstyle
  · split at hstyle
    · cases hstyle
    · split at hstyle <;> cases hstyle

theorem doubleQuoted_unmarked {cs : List Char} (h : ∀ c ∈ cs.head?, c.toNat ≠ 0xFEFF) :
    doubleQuoted cs = '\x22' :: (cs.flatMap (escape false) ++ ['\x22']) := by
  have hmark : (cs.head?.any fun c => c.toNat == 0xFEFF) = false := by
    cases cs with
    | nil => rfl
    | cons c cs => simpa using h c rfl
  rw [doubleQuoted, hmark, List.cons_append]

theorem isBreak_doubledQuotes {cs : List Char} (h : Legible cs) :
    ∀ c ∈ doubledQuotes cs, isBreak c = false := by
  intro c hc
  obtain ⟨d, hd, hmem⟩ := List.mem_flatMap.1 hc
  split at hmem
  · obtain rfl : c = '\x27' := by simpa using hmem
    decide
  · obtain rfl : c = d := by simpa using hmem
    exact (h c hd).2

end Style

/-- **The spelling of a text.** A text of a single line is written on one line, as it is or in
quotes as its style says. -/
theorem spells_scalar {s : String} (h : Text.IsSingleLine s) (step column : Nat) :
    ∃ word, Style.Spells s (Style.ofText s = .plain) word
      ∧ Form.scalar step column s = word ++ ['\n'] := by
  cases hstyle : Style.ofText s with
  | plain =>
    obtain ⟨hreads, hplain⟩ := Style.allowsPlain_of_ofText hstyle
    have hne : s.toList ≠ [] := by
      intro hnil
      obtain rfl : s = "" := String.toList_eq_nil_iff.1 hnil
      exact absurd hreads (by decide +kernel)
    have hlast : isBreak (s.toList.getLast hne) = false :=
      (Style.legible_of_allowsPlain hplain _ (List.getLast_mem hne)).2
    refine ⟨s.toList, ?_, ?_⟩
    · exact .plain (Style.unquoted_of_allowsPlain hne hplain)
    · have hline := Form.endLine_concat hlast (s := s.toList.dropLast)
      rw [List.dropLast_concat_getLast] at hline
      rw [Form.scalar, hstyle]
      exact hline
  | single =>
    have hcs := Style.legible_of_allowsSingle h (Style.allowsSingle_of_ofText hstyle)
    refine ⟨_, .quoted Quoted.spelling_singly hcs (.inl rfl), ?_⟩
    rw [Form.scalar, hstyle]
    simp only
    rw [Form.indented_legible (Style.isBreak_doubledQuotes hcs), Form.endLine_concat (by decide)]
    rfl
  | double =>
    refine ⟨_, .quoted Quoted.spelling_escape (fun _ _ => trivial) (.inr rfl), ?_⟩
    rw [Form.scalar, hstyle]
    simp only
    rw [Style.doubleQuoted_unmarked h.unmarked, ← List.cons_append, Form.endLine_concat (by decide)]
  | literal => exact absurd hstyle (Style.ofText_ne_literal h)

end Yaml

end RulePlan
