import RulePlan.Proofs.TokenSpelling

/-!
# RulePlan.Proofs.ExpressionLexemes — the tokens of an expression are its lexemes

An expression is written out from tokens and read again by another lexer, which knows more: numbers
with points, exponents and marks of their radix, operators of the characters `*`, `=`, `.` and `/`
together, comments, and words that are operators. None of this comes about by writing tokens one
after the other. Wherever two tokens are written without a space between them, the first is an
opening parenthesis or the second is a parenthesis or a comma, and these end whatever stands in
front of them. So the text has one lexeme for each token. Only the sign between the head of a rule
and its body starts no lexeme, and a text with it is refused.
-/

namespace RulePlan.Expression

open Token

/-! ## Lexemes of tokens -/

/-- The lexeme that a token of an expression becomes. -/
def lexeme (t : Token) : Lexeme :=
  match t.kind with
  | .ident => .ofWord t.text
  | .int => .number t.text.toList
  | .leftParen => .leftParen
  | .rightParen => .rightParen
  | _ => .op t.text

/-- A token that expressions may have, as it is written. -/
structure Writable (t : Token) : Prop where
  lexical : Lexical t
  inner : t.kind ≠ .dot ∧ t.kind ≠ .implies

theorem lexeme_eq_leftParen_iff {t : Token} : lexeme t = .leftParen ↔ t.kind = .leftParen := by
  cases hkind : t.kind <;> simp only [lexeme, hkind, Lexeme.ofWord, reduceCtorEq]
  split <;> simp

/-- An operator is spelled as its token. -/
theorem text_of_lexeme_eq_op {t : Token} {s : String} (h : lexeme t = .op s) : t.text = s := by
  cases hkind : t.kind <;>
    simp only [lexeme, hkind, Lexeme.ofWord, reduceCtorEq, Lexeme.op.injEq] at h
  case ident =>
    split at h
    · exact Lexeme.op.inj h
    · cases h
  all_goals exact h

/-- No token of an expression is a point. -/
theorem Writable.lexeme_ne_point {t : Token} (h : Writable t) : lexeme t ≠ .op "." := by
  intro hpoint
  have hmunch := h.lexical [] (by simp [Token.Delimited])
  rw [text_of_lexeme_eq_op hpoint] at hmunch
  have hdot : Token.munch (".".toList ++ []) = some (.dot, ".".toList, []) := by decide
  rw [hdot] at hmunch
  exact h.inner.1 (Prod.mk.inj (Option.some.inj hmunch)).1.symm

/-- Characters that end a token of an expression. -/
def breaks : List Char := [' ', '(', ')', ',']

/-- A text that is empty or starts with a space, a parenthesis or a comma. -/
def Breaks (rest : List Char) : Prop := ∀ c ∈ rest.head?, c ∈ breaks

theorem breaks_cons {c : Char} (h : c ∈ breaks) (rest : List Char) : Breaks (c :: rest) := by
  simpa [Breaks] using h

theorem Breaks.cases {rest : List Char} (h : Breaks rest) :
    rest = [] ∨ ∃ c more, rest = c :: more ∧ c ∈ breaks := by
  cases rest with
  | nil => exact .inl rfl
  | cons c more => exact .inr ⟨c, more, rfl, h c rfl⟩

theorem Breaks.delimited {rest : List Char} (h : Breaks rest) : Delimited rest := by
  have hall : ∀ c ∈ breaks, delimiters.contains c = true := List.all_eq_true.1 rfl
  exact fun c hc => List.contains_iff_mem.1 (hall c (h c hc))

/-! ## Numbers -/

theorem isDigitOf_of_isDigit {c : Char} (h : Token.isDigit c = true) :
    Numeral.isDigitOf 10 c = true := by
  have hdigit : c.isDigit = true := h
  have hle := (isDigit_iff.1 h).2
  rw [Numeral.isDigitOf, Text.Integer.digit?, if_pos hdigit, Option.any_some, Bool.or_eq_true,
    decide_eq_true_eq]
  omega

/-- A digit behind a zero, or a break, marks no radix. -/
theorem marked?_eq_none {ds rest : List Char} (hds : ∀ c ∈ ds, Token.isDigit c = true)
    (hrest : Breaks rest) : Text.Integer.marked? (ds ++ rest) = none := by
  have hmarks : ∀ c, Token.isDigit c = true ∨ c ∈ breaks → c ∉ ['x', 'X', 'o', 'O', 'b', 'B'] := by
    have hall : ∀ c ∈ ['x', 'X', 'o', 'O', 'b', 'B'],
        (!Token.isDigit c && !breaks.contains c) = true :=
      List.all_eq_true.1 rfl
    rintro c (hdigit | hbreak) hc
    · simpa [hdigit] using hall c hc
    · have hmark := hall c hc
      rw [List.contains_iff_mem.2 hbreak, Bool.not_true, Bool.and_false] at hmark
      cases hmark
  have hsecond : ∀ c cs, ds ++ rest = '0' :: c :: cs → c ∉ ['x', 'X', 'o', 'O', 'b', 'B'] := by
    intro c cs hcs
    refine hmarks c ?_
    rcases ds with - | ⟨d, - | ⟨e, ds⟩⟩
    · have hzero := hrest '0' (by rw [← List.nil_append rest, hcs]; rfl)
      exact absurd hzero (by decide)
    · have htail : rest = c :: cs := (List.cons.inj hcs).2
      exact .inr (hrest c (by rw [htail]; rfl))
    · rw [← (List.cons.inj (List.cons.inj hcs).2).1]
      exact .inl (hds e (by simp))
  unfold Text.Integer.marked?
  split
  case h_1 c cs hcs =>
    have hc := hsecond c cs hcs
    simp only [List.mem_cons, List.not_mem_nil, or_false, not_or] at hc
    simp [hc]
  case h_2 => rfl

/-- Digits in front of a break are a whole numeral. -/
theorem numeral_length? {ds rest : List Char} (hds : ∀ c ∈ ds, Token.isDigit c = true)
    (hrest : Breaks rest) : Numeral.length? (ds ++ rest) = some ds.length := by
  have hbreaks : ∀ c ∈ breaks, (!Numeral.isDigitOf 10 c && !isNamePart c) = true :=
    List.all_eq_true.1 rfl
  have hplain : ∀ c ∈ rest.head?, Numeral.isDigitOf 10 c = false ∧ isNamePart c = false :=
    fun c hc => by simpa using hbreaks c (hrest c hc)
  have hradix : Numeral.radix (ds ++ rest) = (10, ds ++ rest) := by
    rw [Numeral.radix, marked?_eq_none hds hrest]
    rfl
  have hrun : Numeral.run 10 (ds ++ rest) = ds.length := by
    rw [Numeral.run, (takeWhile_append_of_head (fun c hc => isDigitOf_of_isDigit (hds c hc))
      fun c hc => (hplain c hc).1).1]
  have hfraction : Numeral.fractionLength 10 rest = 0 := by
    rcases hrest.cases with rfl | ⟨c, more, rfl, hc⟩
    · rfl
    · simp only [breaks, List.mem_cons, List.not_mem_nil, or_false] at hc
      casesm* _ ∨ _ <;> subst hc <;> rfl
  have hlength : Numeral.length (ds ++ rest) = ds.length := by
    rw [Numeral.length, hradix]
    dsimp only
    rw [hrun, List.drop_left, hfraction]
    simp
  have hclings : rest.head?.any isNamePart = false := by
    cases hhead : rest.head? with
    | none => rfl
    | some c => exact (hplain c hhead).2
  rw [Numeral.length?, hlength, List.drop_left, hclings]
  rfl

/-! ## Tokens -/

theorem ofChars?_blank {c : Char} (h : Text.isBlank c = true) (cs : List Char) :
    Lexeme.ofChars? (c :: cs) = Lexeme.ofChars? cs := by
  conv_lhs => unfold Lexeme.ofChars?
  exact if_pos h

theorem ofChars?_leftParen (rest : List Char) :
    Lexeme.ofChars? ('(' :: rest) = (Lexeme.ofChars? rest).map (.leftParen :: ·) := by
  conv_lhs => unfold Lexeme.ofChars?
  rfl

theorem ofChars?_rightParen (rest : List Char) :
    Lexeme.ofChars? (')' :: rest) = (Lexeme.ofChars? rest).map (.rightParen :: ·) := by
  conv_lhs => unfold Lexeme.ofChars?
  rfl

theorem ofChars?_comma (rest : List Char) :
    Lexeme.ofChars? (',' :: rest) = (Lexeme.ofChars? rest).map (.op "," :: ·) := by
  conv_lhs => unfold Lexeme.ofChars?
  rfl

theorem ofChars?_nil : Lexeme.ofChars? [] = some [] := by
  unfold Lexeme.ofChars?
  rfl

theorem ofChars?_dot {rest : List Char} (hrest : Breaks rest) :
    Lexeme.ofChars? ('.' :: rest) = (Lexeme.ofChars? rest).map (.op "." :: ·) := by
  rcases hrest.cases with rfl | ⟨c, more, rfl, hc⟩
  · conv_lhs => unfold Lexeme.ofChars?
    rfl
  · simp only [breaks, List.mem_cons, List.not_mem_nil, or_false] at hc
    casesm* _ ∨ _ <;> subst hc <;> conv_lhs => unfold Lexeme.ofChars?
    all_goals rfl

theorem ofChars?_implies (rest : List Char) : Lexeme.ofChars? (':' :: rest) = none := by
  unfold Lexeme.ofChars?
  rfl

theorem ofChars?_op {s : List Char} (hs : (s, Kind.op) ∈ fixedSpellings) {rest : List Char}
    (hrest : Breaks rest) : Lexeme.ofChars? (s ++ rest)
      = (Lexeme.ofChars? rest).map (.op (String.ofList s) :: ·) := by
  simp only [fixedSpellings, List.mem_cons, Prod.mk.injEq, reduceCtorEq, and_false, false_or,
    and_true, List.not_mem_nil, or_false] at hs
  rcases hrest.cases with rfl | ⟨c, more, rfl, hc⟩
  · casesm* _ ∨ _ <;> subst hs <;> conv_lhs => unfold Lexeme.ofChars?
    all_goals first | rfl | (rw [ofChars?_nil]; rfl)
  · simp only [breaks, List.mem_cons, List.not_mem_nil, or_false] at hc
    casesm* _ ∨ _ <;> subst hs hc <;> conv_lhs => unfold Lexeme.ofChars?
    all_goals rfl

/-- A character of a word or a number is neither blank nor a parenthesis. -/
theorem plain_of_isNamePart {c : Char} (h : isNamePart c = true) :
    ¬Text.isBlank c = true ∧ c ≠ '(' ∧ c ≠ ')' := by
  refine ⟨by simp [not_isBlank_of_isNamePart h], ?_, ?_⟩ <;>
    · rintro rfl
      exact absurd h (by decide)

theorem ofChars?_number {ds rest : List Char} (hne : ds ≠ [])
    (hds : ∀ c ∈ ds, Token.isDigit c = true) (hrest : Breaks rest) :
    Lexeme.ofChars? (ds ++ rest) = (Lexeme.ofChars? rest).map (.number ds :: ·) := by
  have hlength := numeral_length? hds hrest
  obtain ⟨c, ds, rfl⟩ := List.exists_cons_of_ne_nil hne
  have hc := hds c List.mem_cons_self
  obtain ⟨hblank, hopen, hclose⟩ := plain_of_isNamePart (isNamePart_of_isDigit hc)
  conv_lhs => unfold Lexeme.ofChars?
  rw [List.cons_append] at hlength ⊢
  dsimp only
  rw [if_neg hblank, if_neg hopen, if_neg hclose, if_pos hc, hlength]
  simp

theorem ofChars?_word {c : Char} {word rest : List Char} (hc : isNameStart c = true)
    (hword : ∀ d ∈ word, isNamePart d = true) (hrest : Breaks rest) :
    Lexeme.ofChars? (c :: word ++ rest)
      = (Lexeme.ofChars? rest).map (.ofWord (String.ofList (c :: word)) :: ·) := by
  obtain ⟨hblank, hopen, hclose⟩ := plain_of_isNamePart (isNamePart_of_isNameStart hc)
  obtain ⟨htake, hdrop⟩ := takeWhile_append_of_head hword hrest.delimited.not_isNamePart
  conv_lhs => unfold Lexeme.ofChars?
  rw [List.cons_append]
  dsimp only
  rw [if_neg hblank, if_neg hopen, if_neg hclose, if_neg (not_isDigit_of_isNameStart hc),
    if_pos hc, htake, hdrop]

/-- A token with a fixed spelling in front of a break. -/
theorem ofChars?_fixed {t : Token} (himplies : t.kind ≠ .implies)
    (hfixed : (t.text.toList, t.kind) ∈ fixedSpellings) {rest : List Char} (hrest : Breaks rest) :
    Lexeme.ofChars? (t.text.toList ++ rest) = (Lexeme.ofChars? rest).map (lexeme t :: ·) := by
  have hnot : ∀ e ∈ fixedSpellings, e.2 = .not → e.1 = ['!'] := by decide
  have hopen : ∀ e ∈ fixedSpellings, e.2 ∉ [Kind.eof, .ident, .int, .unknown] := by decide
  cases hkind : t.kind with
  | leftParen =>
    have htext : t.text = "(" := by rw [text, hkind]
    rw [lexeme, htext, hkind]
    exact ofChars?_leftParen rest
  | rightParen =>
    have htext : t.text = ")" := by rw [text, hkind]
    rw [lexeme, htext, hkind]
    exact ofChars?_rightParen rest
  | comma =>
    have htext : t.text = "," := by rw [text, hkind]
    rw [lexeme, htext, hkind]
    exact ofChars?_comma rest
  | op =>
    rw [hkind] at hfixed
    rw [ofChars?_op hfixed hrest, String.ofList_toList, lexeme, hkind]
  | not =>
    -- a text never has the other spelling of negation
    have htext : t.text = "not" := by rw [text, hkind]
    have hbang : t.text.toList = ['!'] := hnot _ hfixed hkind
    rw [htext] at hbang
    exact absurd hbang (by decide)
  | dot =>
    have htext : t.text = "." := by rw [text, hkind]
    rw [lexeme, htext, hkind]
    exact ofChars?_dot hrest
  | implies => exact absurd hkind himplies
  | eof | ident | int | unknown =>
    exact absurd (by simp [hkind]) (hopen _ hfixed)

theorem lexeme_word {t : Token} {word : List Char} (htext : t.text.toList = word)
    (hkind : t.kind = wordKind word) : lexeme t = .ofWord (String.ofList word) := by
  rw [← htext, String.ofList_toList]
  rw [wordKind] at hkind
  split at hkind
  · next hnot =>
    have hword : t.text = "not" := String.toList_inj.1 (htext.trans hnot)
    rw [lexeme, hkind, hword]
    rfl
  · rw [lexeme, hkind]

/-- A token in front of a break is its lexeme, and an opening parenthesis in front of anything. -/
theorem ofChars?_token {t : Token} (ht : Lexical t) (himplies : t.kind ≠ .implies)
    {rest : List Char} (hrest : Breaks rest ∨ t.kind = .leftParen) :
    Lexeme.ofChars? (t.text.toList ++ rest) = (Lexeme.ofChars? rest).map (lexeme t :: ·) := by
  rcases hrest with hrest | hparen
  · rcases munch_cases (ht [] (by simp [Delimited]))
      with hfixed | ⟨hint, hne, hdigits⟩ | ⟨c, word, htext, hkind, hc, hword⟩
    · exact ofChars?_fixed himplies hfixed hrest
    · rw [ofChars?_number hne hdigits hrest, lexeme, hint]
    · rw [htext] at hkind
      rw [htext, ofChars?_word hc hword hrest, lexeme_word htext hkind]
  · have htext : t.text = "(" := by rw [text, hparen]
    rw [lexeme, htext, hparen]
    exact ofChars?_leftParen rest

/-! ## Expressions -/

/-- The lexemes of tokens, if none of them is the sign that starts a body. -/
def lexemes? : List Token → Option (List Lexeme)
  | [] => some []
  | t :: ts => if t.kind = .implies then none else (lexemes? ts).map (lexeme t :: ·)

theorem lexemes?_eq_some {ts : List Token} (h : ∀ t ∈ ts, t.kind ≠ .implies) :
    lexemes? ts = some (ts.map lexeme) := by
  induction ts with
  | nil => rfl
  | cons t ts ih =>
    rw [lexemes?, if_neg (h t List.mem_cons_self), ih fun u hu => h u (List.mem_cons_of_mem t hu)]
    rfl

theorem eq_map_lexeme_of_lexemes? {ts : List Token} {ls : List Lexeme}
    (h : lexemes? ts = some ls) : ls = ts.map lexeme := by
  induction ts generalizing ls with
  | nil => exact (Option.some.inj h).symm
  | cons t ts ih =>
    rw [lexemes?] at h
    split at h
    · cases h
    · obtain ⟨more, hmore, rfl⟩ := Option.map_eq_some_iff.1 h
      rw [ih hmore, List.map_cons]

/-- A token stands in front of text as among tokens. -/
theorem ofChars?_append {t : Token} (ht : Lexical t) {rest : List Char} {ts : List Token}
    (hrest : Breaks rest ∨ t.kind = .leftParen) (hread : Lexeme.ofChars? rest = lexemes? ts) :
    Lexeme.ofChars? (t.text.toList ++ rest) = lexemes? (t :: ts) := by
  rw [lexemes?]
  split
  case isTrue himplies =>
    have htext : t.text = ":-" := by rw [text, himplies]
    rw [htext]
    exact ofChars?_implies _
  case isFalse himplies => rw [ofChars?_token ht himplies hrest, hread]

/-- What is written after a token has the lexemes of its tokens. It starts with a break, unless the
token is an opening parenthesis. -/
theorem ofChars?_spellAfter {ts : List Token} (hts : ∀ t ∈ ts, Lexical t) (before : Token) :
    Lexeme.ofChars? (spellAfter before ts).toList = lexemes? ts
      ∧ (Breaks (spellAfter before ts).toList ∨ before.kind = .leftParen) := by
  induction ts generalizing before with
  | nil => exact ⟨ofChars?_nil, .inl (by simp [Breaks, spellAfter])⟩
  | cons t ts ih =>
    obtain ⟨hread, hafter⟩ := ih (fun u hu => hts u (List.mem_cons_of_mem t hu)) t
    have htoken := ofChars?_append (hts t List.mem_cons_self) hafter hread
    rw [spellAfter]
    split
    case isTrue htight =>
      rw [String.empty_append, String.toList_append]
      refine ⟨htoken, ?_⟩
      have hbreaks : ∀ c ∈ ['(', ')', ','], c ∈ breaks := by simp [breaks]
      rcases text_of_tight htight with hbefore | ⟨c, hc, htext⟩
      · exact .inr hbefore
      · rw [htext]
        exact .inl (breaks_cons (hbreaks c hc) _)
    case isFalse =>
      rw [String.append_assoc, String.toList_append, String.toList_append]
      refine ⟨?_, .inl (breaks_cons (by decide) _)⟩
      rw [← htoken]
      exact ofChars?_blank (by decide) _

/-- Written tokens are cut into their lexemes. -/
theorem ofChars?_spell {ts : List Token} (hts : ∀ t ∈ ts, Lexical t) :
    Lexeme.ofChars? (spell ts).toList = lexemes? ts := by
  cases ts with
  | nil => exact ofChars?_nil
  | cons t ts =>
    obtain ⟨hread, hafter⟩ := ofChars?_spellAfter (fun u hu => hts u (List.mem_cons_of_mem t hu)) t
    rw [spell, String.toList_append, ofChars?_append (hts t List.mem_cons_self) hafter hread]

/-- A written expression has a lexeme for each of its tokens. -/
theorem ofChars?_spell_writable {ts : List Token} (hts : ∀ t ∈ ts, Writable t) :
    Lexeme.ofChars? (spell ts).toList = some (ts.map lexeme) := by
  rw [ofChars?_spell fun t ht => (hts t ht).lexical]
  exact lexemes?_eq_some fun t ht => (hts t ht).inner.2

end RulePlan.Expression
