import RulePlan.Proofs.Nesting

/-!
# RulePlan.Proofs.RuleGrammar — the grammar of rules

A rule is written `atom :- element, …, element.`, an atom `name(arg, …, arg)`, and an element is an
atom, `not` with an atom, `name = expression`, or a comparison. The grammar is given by its trees: a
form records what the grammar leaves open, `tokens` spells it out, `Valid` states the conditions
that go beyond shape, and `denote` is the rule that it stands for. Places in the text play no part
in any of this, so all tokens here are `unplaced`.

The grammar is unambiguous: two valid forms with the same tokens are equal. No token of an atom is
the separator, joined pieces can be cut apart again, and the conditions on a comparison keep it from
looking like any other element.
-/

namespace RulePlan

/-- A token without its place: its kind and its spelling. -/
def Token.unplaced (t : Token) : Token := ⟨t.kind, t.text, 0, 0⟩

namespace Grammar

open Rule

/-! ## Tokens -/

/-- The token of a name. -/
def ident (s : String) : Token := ⟨.ident, s, 0, 0⟩

/-- The token of a run of digits. -/
def int (s : String) : Token := ⟨.int, s, 0, 0⟩

/-- The token of an operator. -/
def op (s : String) : Token := ⟨.op, s, 0, 0⟩

/-- `(` -/
def leftParen : Token := ⟨.leftParen, "(", 0, 0⟩

/-- `)` -/
def rightParen : Token := ⟨.rightParen, ")", 0, 0⟩

/-- `,` -/
def comma : Token := ⟨.comma, ",", 0, 0⟩

/-- `:-` -/
def implies : Token := ⟨.implies, ":-", 0, 0⟩

/-- `.` -/
def dot : Token := ⟨.dot, ".", 0, 0⟩

/-- The sign of negation, in either spelling. -/
def negation : Token := ⟨.not, "not", 0, 0⟩

/-- Pieces with commas between them. -/
def joined (pieces : List (List Token)) : List Token := [comma].intercalate pieces

/-! ## Forms -/

/-- An argument: a name, a number, or a number after a minus sign. -/
inductive ArgForm where
  | name (s : String)
  | number (digits : String)
  | negative (digits : String)
deriving DecidableEq, Repr

/-- A name with arguments in parentheses. -/
structure AtomForm where
  name : String
  args : List ArgForm
deriving DecidableEq, Repr

/-- An element of a body. -/
inductive ElementForm where
  | literal (negated : Bool) (atom : AtomForm)
  | assign (target : String) (value : List Token)
  | test (condition : List Token)
deriving DecidableEq, Repr

/-- A head and the elements of a body. -/
structure RuleForm where
  head : AtomForm
  body : List ElementForm
deriving DecidableEq, Repr

/-- The tokens of an argument. -/
def ArgForm.tokens : ArgForm → List Token
  | .name s => [ident s]
  | .number digits => [int digits]
  | .negative digits => [op "-", int digits]

/-- The tokens of an atom. -/
def AtomForm.tokens (a : AtomForm) : List Token :=
  ident a.name :: leftParen :: (joined (a.args.map ArgForm.tokens) ++ [rightParen])

/-- The tokens of an element. -/
def ElementForm.tokens : ElementForm → List Token
  | .literal negated atom => (if negated then [negation] else []) ++ atom.tokens
  | .assign target value => ident target :: op "=" :: value
  | .test condition => condition

/-- The tokens of a rule. -/
def RuleForm.tokens (r : RuleForm) : List Token :=
  r.head.tokens ++ implies :: (joined (r.body.map ElementForm.tokens) ++ [dot])

/-! ## Validity -/

/-- Numbers lie in the range of 64 bits. -/
def ArgForm.Valid : ArgForm → Prop
  | .name _ => True
  | .number digits => (Text.Decimal.value digits.toList : Int) ≤ 9223372036854775807
  | .negative digits => -9223372036854775808 ≤ -(Text.Decimal.value digits.toList : Int)

/-- All arguments are valid. -/
def AtomForm.Valid (a : AtomForm) : Prop := ∀ x ∈ a.args, x.Valid

/-- Tokens that may stand between two commas of a body: parentheses match, commas stand inside them,
and there is neither a dot nor a separator. -/
structure IsPiece (ts : List Token) : Prop where
  balanced : Rule.Balanced ts
  flat : Flat 0 ts
  inner : ∀ t ∈ ts, t.kind ≠ .dot ∧ t.kind ≠ .implies

/-- Tokens of an expression: a piece that the expression language accepts. -/
structure IsExpression (ts : List Token) : Prop extends IsPiece ts where
  accepted : ∃ e, Expression.ofTokens? ts = some e

/-- The shape of an assignment. -/
def AssignShape (ts : List Token) : Prop := ∃ target value, ts = ident target :: op "=" :: value

/-- The shape of a name with parentheses around all the rest. -/
def CallShape (ts : List Token) : Prop :=
  ∃ name inner, ts = ident name :: leftParen :: (inner ++ [rightParen]) ∧ Rule.Balanced inner

/-- Tokens of a comparison: an expression with a comparison operator that looks like no other
element. -/
structure IsTest (ts : List Token) : Prop extends IsExpression ts where
  compares : ∃ t ∈ ts, t.isComparison = true
  not_negated : ∀ t ∈ ts.head?, t.kind ≠ .not
  not_assign : ¬AssignShape ts
  not_call : ¬CallShape ts

/-- The conditions on an element. -/
def ElementForm.Valid : ElementForm → Prop
  | .literal _ atom => atom.Valid
  | .assign _ value => IsExpression value
  | .test condition => IsTest condition

/-- Whether an element is a literal. -/
def ElementForm.isLiteral : ElementForm → Bool
  | .literal _ _ => true
  | _ => false

/-- Whether an element is a literal that is not negated. -/
def ElementForm.isPositive : ElementForm → Bool
  | .literal negated _ => !negated
  | _ => false

/-- The conditions on a rule: the head names all its variables, and the body has a literal but no
more than two that are not negated. -/
structure RuleForm.Valid (r : RuleForm) : Prop where
  head : r.head.Valid
  named : ∀ x ∈ r.head.args, x ≠ .name "_"
  body : ∀ e ∈ r.body, e.Valid
  literal : ∃ e ∈ r.body, e.isLiteral = true
  positive : r.body.countP ElementForm.isPositive ≤ 2

/-! ## Meaning -/

/-- The argument of a form, `n` anonymous variables standing before it. The next one is called
`_` with its number. -/
def ArgForm.denote (n : Nat) : ArgForm → Argument × Nat
  | .name s =>
    if s = "_" then (.var ("_" ++ Text.Decimal.ofNat (n + 1)), n + 1) else (.var s, n)
  | .number digits => (.const (Int64.ofInt (Text.Decimal.value digits.toList)), n)
  | .negative digits => (.const (Int64.ofInt (-(Text.Decimal.value digits.toList : Int))), n)

/-- The arguments of forms in order. -/
def denoteArgs (n : Nat) : List ArgForm → List Argument × Nat
  | [] => ([], n)
  | x :: xs =>
    ((x.denote n).1 :: (denoteArgs (x.denote n).2 xs).1, (denoteArgs (x.denote n).2 xs).2)

/-- The atom of a form. -/
def AtomForm.denote (n : Nat) (a : AtomForm) : Atom × Nat :=
  (⟨a.name, (denoteArgs n a.args).1⟩, (denoteArgs n a.args).2)

/-- The expression that tokens spell; valid forms hold none that do not. -/
def expression (ts : List Token) : Expression := (Expression.ofTokens? ts).getD ⟨"", [], []⟩

/-- The element of a form. -/
def ElementForm.denote (n : Nat) : ElementForm → Element × Nat
  | .literal negated atom => (.literal ⟨negated, (atom.denote n).1⟩, (atom.denote n).2)
  | .assign target value => (.assign target (expression value), n)
  | .test condition => (.test (expression condition), n)

/-- The body of forms in order. -/
def denoteBody (n : Nat) : List ElementForm → List Element
  | [] => []
  | e :: es => (e.denote n).1 :: denoteBody (e.denote n).2 es

/-- The rule of a form, with its line and its text. Anonymous variables are counted in the body. -/
def RuleForm.denote (r : RuleForm) (line : Int) (text : String) : Rule :=
  ⟨(r.head.denote 0).1, denoteBody 0 r.body, line, text⟩

/-! ## Nesting of forms -/

theorem ArgForm.tokens_plain (x : ArgForm) : ∀ t ∈ x.tokens,
    t.kind ≠ .leftParen ∧ t.kind ≠ .rightParen ∧ t.kind ≠ .comma ∧ t.kind ≠ .dot
      ∧ t.kind ≠ .implies := by
  cases x <;> simp [ArgForm.tokens, ident, int, op]

theorem ArgForm.tokens_ne_nil (x : ArgForm) : x.tokens ≠ [] := by
  cases x <;> simp [ArgForm.tokens]

theorem mem_joined {pieces : List (List Token)} {t : Token} (h : t ∈ joined pieces) :
    t = comma ∨ ∃ s ∈ pieces, t ∈ s := by
  induction pieces with
  | nil => simp [joined] at h
  | cons s pieces ih =>
    cases pieces with
    | nil =>
      rw [joined, List.intercalate_singleton] at h
      exact .inr ⟨s, List.mem_cons_self, h⟩
    | cons u us =>
      rw [joined, List.intercalate_cons_cons, List.append_assoc] at h
      rcases List.mem_append.1 h with h | h
      · exact .inr ⟨s, List.mem_cons_self, h⟩
      · rcases List.mem_append.1 h with h | h
        · exact .inl (List.mem_singleton.1 h)
        · refine (ih h).imp_right ?_
          rintro ⟨v, hv, ht⟩
          exact ⟨v, List.mem_cons_of_mem s hv, ht⟩

/-- Pieces that are balanced stay so when they are joined. -/
theorem balanced_joined {pieces : List (List Token)} (h : ∀ s ∈ pieces, Rule.Balanced s) :
    Rule.Balanced (joined pieces) := by
  induction pieces with
  | nil => exact balanced_nil
  | cons s pieces ih =>
    have hs := h s List.mem_cons_self
    cases pieces with
    | nil =>
      rw [joined, List.intercalate_singleton]
      exact hs
    | cons u us =>
      rw [joined, List.intercalate_cons_cons]
      refine (hs.append (balanced_singleton rfl)).append ?_
      exact ih fun v hv => h v (List.mem_cons_of_mem s hv)

/-- Pieces that are joined can be cut apart. -/
theorem segments_joined {pieces : List (List Token)} (hne : pieces ≠ [])
    (h : ∀ s ∈ pieces, Flat 0 s ∧ Rule.Balanced s) : segments 0 (joined pieces) = pieces :=
  segments_intercalate rfl hne fun s hs => ⟨(h s hs).1, (h s hs).2.2⟩

theorem ArgForm.flat_balanced (x : ArgForm) : Flat 0 x.tokens ∧ Rule.Balanced x.tokens := by
  obtain ⟨hzero, hstays, hflat⟩ := plain_nesting fun t ht =>
    have h := x.tokens_plain t ht
    ⟨h.1, h.2.1, h.2.2.1⟩
  exact ⟨hflat 0, hstays 0 (Int.le_refl 0), hzero⟩

theorem balanced_args (args : List ArgForm) : Rule.Balanced (joined (args.map ArgForm.tokens)) := by
  refine balanced_joined fun s hs => ?_
  obtain ⟨x, -, rfl⟩ := List.mem_map.1 hs
  exact x.flat_balanced.2

/-- Parentheses around balanced tokens, after a name, make a piece. -/
theorem isPiece_call {name : String} {inner : List Token} (hbalanced : Rule.Balanced inner)
    (hinner : ∀ t ∈ inner, t.kind ≠ .dot ∧ t.kind ≠ .implies) :
    IsPiece (ident name :: leftParen :: (inner ++ [rightParen])) where
  balanced := by
    obtain ⟨hstays, hzero⟩ := hbalanced
    have hdeep : Stays 1 inner := fun front hfront => by
      have := hstays front hfront
      omega
    have hparens : turn (ident name) = 0 ∧ turn leftParen = 1 ∧ turn rightParen = -1 :=
      ⟨rfl, rfl, rfl⟩
    refine ⟨?_, ?_⟩
    · simp only [stays_cons, stays_append, stays_nil, hparens, hzero]
      exact ⟨by omega, by omega, by simpa using hdeep, by omega, by omega⟩
    · simp only [nesting_cons, nesting_append, nesting_nil, hparens, hzero]
      omega
  flat := by
    have hflat : Flat 1 inner := flat_of_stays hbalanced.1
    have hkinds : (ident name).kind ≠ .comma ∧ leftParen.kind ≠ .comma
        ∧ rightParen.kind ≠ .comma := ⟨nofun, nofun, nofun⟩
    have hparens : turn (ident name) = 0 ∧ turn leftParen = 1 := ⟨rfl, rfl⟩
    simp only [flat_cons, flat_append, hparens]
    exact ⟨fun h => absurd h hkinds.1, fun h => absurd h hkinds.2.1, by simpa using hflat,
      fun h => absurd h hkinds.2.2, flat_nil _⟩
  inner := by
    intro t ht
    rcases List.mem_cons.1 ht with rfl | ht
    · exact ⟨nofun, nofun⟩
    · rcases List.mem_cons.1 ht with rfl | ht
      · exact ⟨nofun, nofun⟩
      · rcases List.mem_append.1 ht with ht | ht
        · exact hinner t ht
        · rw [List.mem_singleton.1 ht]
          exact ⟨nofun, nofun⟩

theorem AtomForm.isPiece (a : AtomForm) : IsPiece a.tokens := by
  refine isPiece_call (balanced_args a.args) fun t ht => ?_
  rcases mem_joined ht with rfl | ⟨s, hs, hts⟩
  · exact ⟨nofun, nofun⟩
  · obtain ⟨x, -, rfl⟩ := List.mem_map.1 hs
    exact (x.tokens_plain t hts).2.2.2

/-- A token that is no parenthesis, comma, dot or separator may stand in front of a piece. -/
theorem isPiece_cons_iff {t : Token} {ts : List Token} (hturn : turn t = 0)
    (hcomma : t.kind ≠ .comma) (hinner : t.kind ≠ .dot ∧ t.kind ≠ .implies) :
    IsPiece (t :: ts) ↔ IsPiece ts := by
  have hbalanced : Rule.Balanced (t :: ts) ↔ Rule.Balanced ts := by
    unfold Rule.Balanced
    rw [stays_cons, nesting_cons, hturn, Int.add_zero, Int.zero_add,
      and_iff_right (Int.le_refl 0)]
  have hflat : Flat 0 (t :: ts) ↔ Flat 0 ts := by
    rw [flat_cons, hturn, Int.add_zero, and_iff_right fun hk => absurd hk hcomma]
  constructor
  · intro h
    exact ⟨hbalanced.1 h.balanced, hflat.1 h.flat,
      fun u hu => h.inner u (List.mem_cons_of_mem t hu)⟩
  · intro h
    refine ⟨hbalanced.2 h.balanced, hflat.2 h.flat, fun u hu => ?_⟩
    rcases List.mem_cons.1 hu with rfl | hu
    · exact hinner
    · exact h.inner u hu

theorem ElementForm.isPiece {e : ElementForm} (h : e.Valid) : IsPiece e.tokens := by
  cases e with
  | literal negated atom =>
    cases negated with
    | false => exact atom.isPiece
    | true => exact (isPiece_cons_iff (t := negation) rfl nofun ⟨nofun, nofun⟩).2 atom.isPiece
  | assign target value =>
    refine (isPiece_cons_iff (t := ident target) rfl nofun ⟨nofun, nofun⟩).2 ?_
    exact (isPiece_cons_iff (t := op "=") rfl nofun ⟨nofun, nofun⟩).2 h.toIsPiece
  | test condition => exact h.toIsPiece

theorem isPiece_of_mem_body {body : List ElementForm} (h : ∀ e ∈ body, e.Valid) :
    ∀ s ∈ body.map ElementForm.tokens, IsPiece s := by
  intro s hs
  obtain ⟨e, he, rfl⟩ := List.mem_map.1 hs
  exact ElementForm.isPiece (h e he)

/-! ## Unambiguity -/

theorem ArgForm.tokens_injective : Function.Injective ArgForm.tokens := by
  intro x y h
  cases x <;> cases y <;> simp_all [ArgForm.tokens, ident, int, op]

theorem segments_args {args : List ArgForm} (hne : args ≠ []) :
    segments 0 (joined (args.map ArgForm.tokens)) = args.map ArgForm.tokens := by
  refine segments_joined (by simpa using hne) fun s hs => ?_
  obtain ⟨x, -, rfl⟩ := List.mem_map.1 hs
  exact x.flat_balanced

/-- Cutting nothing gives one empty piece, which no argument is. -/
theorem joined_args_eq_nil_iff {args : List ArgForm} :
    joined (args.map ArgForm.tokens) = [] ↔ args = [] := by
  refine ⟨fun hnil => ?_, fun h => by rw [h]; rfl⟩
  by_contra hne
  have hone := segments_args hne
  rw [hnil] at hone
  have hempty : [] ∈ args.map ArgForm.tokens := hone ▸ List.mem_singleton_self _
  obtain ⟨x, -, hx⟩ := List.mem_map.1 hempty
  exact x.tokens_ne_nil hx

/-- Arguments can be read off what they are joined to. -/
theorem joined_args_injective {xs ys : List ArgForm}
    (h : joined (xs.map ArgForm.tokens) = joined (ys.map ArgForm.tokens)) : xs = ys := by
  by_cases hx : xs = []
  · subst hx
    exact (joined_args_eq_nil_iff.1 h.symm).symm
  · have hy : ys ≠ [] := by
      rintro rfl
      exact hx (joined_args_eq_nil_iff.1 h)
    have hmap := segments_args hx
    rw [h, segments_args hy] at hmap
    exact (List.map_injective_iff.2 ArgForm.tokens_injective hmap).symm

theorem AtomForm.tokens_injective : Function.Injective AtomForm.tokens := by
  rintro ⟨name, args⟩ ⟨name', args'⟩ h
  unfold AtomForm.tokens at h
  obtain ⟨hname, htail⟩ := List.cons.inj h
  obtain ⟨-, hargs⟩ := List.cons.inj htail
  obtain rfl : name = name' := congrArg Token.value hname
  obtain rfl : args = args' := joined_args_injective ((List.append_left_inj _).1 hargs)
  rfl

theorem AtomForm.callShape (a : AtomForm) : CallShape a.tokens :=
  ⟨a.name, _, rfl, balanced_args a.args⟩

/-- An element that is not a comparison has a shape that comparisons may not have. -/
theorem ElementForm.not_isTest {e : ElementForm} (h : ∀ c, e ≠ .test c) : ¬IsTest e.tokens := by
  intro htest
  cases e with
  | literal negated atom =>
    cases negated with
    | false => exact htest.not_call atom.callShape
    | true => exact htest.not_negated negation (by simp [ElementForm.tokens]) rfl
  | assign target value => exact htest.not_assign ⟨target, value, rfl⟩
  | test c => exact h c rfl

/-- The tokens of a literal or an assignment tell which one it is. -/
theorem ElementForm.tokens_injective {e f : ElementForm} (he : e.Valid) (hf : f.Valid)
    (h : e.tokens = f.tokens) : e = f := by
  by_cases htest : ∃ c, e = .test c
  · obtain ⟨c, rfl⟩ := htest
    by_cases hother : ∃ d, f = .test d
    · obtain ⟨d, rfl⟩ := hother
      exact congrArg ElementForm.test h
    · refine absurd ?_ (ElementForm.not_isTest fun d hd => hother ⟨d, hd⟩)
      rw [← h]
      exact he
  · have hother : ∀ d, f ≠ .test d := by
      rintro d rfl
      refine absurd ?_ (ElementForm.not_isTest fun c hc => htest ⟨c, hc⟩)
      rw [h]
      exact hf
    cases e with
    | test c => exact absurd ⟨c, rfl⟩ htest
    | literal negated atom =>
      cases f with
      | test d => exact absurd rfl (hother d)
      | literal negated' atom' =>
        cases negated <;> cases negated'
        · exact congrArg _ (AtomForm.tokens_injective h)
        · exact nomatch congrArg (fun ts => ts.head?.map Token.kind) h
        · exact nomatch congrArg (fun ts => ts.head?.map Token.kind) h
        · exact congrArg _ (AtomForm.tokens_injective (List.cons.inj h).2)
      | assign target value =>
        cases negated
        · exact nomatch congrArg (fun ts => ts[1]?.map Token.kind) h
        · exact nomatch congrArg (fun ts => ts.head?.map Token.kind) h
    | assign target value =>
      cases f with
      | test d => exact absurd rfl (hother d)
      | literal negated atom =>
        cases negated
        · exact nomatch congrArg (fun ts => ts[1]?.map Token.kind) h
        · exact nomatch congrArg (fun ts => ts.head?.map Token.kind) h
      | assign target' value' =>
        obtain ⟨htarget, htail⟩ := List.cons.inj h
        obtain ⟨-, rfl⟩ := List.cons.inj htail
        obtain rfl : target = target' := congrArg Token.value htarget
        rfl

theorem map_tokens_injective {xs ys : List ElementForm} (hx : ∀ e ∈ xs, e.Valid)
    (hy : ∀ e ∈ ys, e.Valid) (h : xs.map ElementForm.tokens = ys.map ElementForm.tokens) :
    xs = ys := by
  induction xs generalizing ys with
  | nil =>
    cases ys with
    | nil => rfl
    | cons y ys => cases h
  | cons x xs ih =>
    cases ys with
    | nil => cases h
    | cons y ys =>
      obtain ⟨hhead, htail⟩ := List.cons.inj h
      obtain rfl := ElementForm.tokens_injective (hx x List.mem_cons_self)
        (hy y List.mem_cons_self) hhead
      rw [ih (fun e he => hx e (List.mem_cons_of_mem x he))
        (fun e he => hy e (List.mem_cons_of_mem x he)) htail]

theorem RuleForm.Valid.body_ne_nil {r : RuleForm} (h : r.Valid) : r.body ≠ [] := by
  obtain ⟨e, he, -⟩ := h.literal
  exact List.ne_nil_of_mem he

/-- No token of a body is a dot or a separator. -/
theorem RuleForm.Valid.inner_body {r : RuleForm} (h : r.Valid) :
    ∀ t ∈ joined (r.body.map ElementForm.tokens), t.kind ≠ .dot ∧ t.kind ≠ .implies := by
  intro t ht
  rcases mem_joined ht with rfl | ⟨s, hs, hts⟩
  · exact ⟨nofun, nofun⟩
  · exact (isPiece_of_mem_body h.body s hs).inner t hts

theorem RuleForm.Valid.segments_body {r : RuleForm} (h : r.Valid) :
    segments 0 (joined (r.body.map ElementForm.tokens)) = r.body.map ElementForm.tokens := by
  refine segments_joined (by simpa using h.body_ne_nil) fun s hs => ?_
  have hpiece := isPiece_of_mem_body h.body s hs
  exact ⟨hpiece.flat, hpiece.balanced⟩

/-- **The grammar is unambiguous.** -/
theorem RuleForm.eq_of_tokens_eq {r s : RuleForm} (hr : r.Valid) (hs : s.Valid)
    (h : r.tokens = s.tokens) : r = s := by
  have hhead : implies ∉ r.head.tokens := fun hmem => (r.head.isPiece.inner implies hmem).2 rfl
  have hrest : implies ∉ joined (r.body.map ElementForm.tokens) ++ [dot] := by
    intro hmem
    rcases List.mem_append.1 hmem with hmem | hmem
    · exact (hr.inner_body implies hmem).2 rfl
    · exact nomatch List.mem_singleton.1 hmem
  obtain ⟨hhead, -, hbody⟩ := (List.append_cons_inj_of_notMem hhead hrest).1 h
  have hjoined := (List.append_left_inj _).1 hbody
  have hcut := hr.segments_body
  rw [hjoined, hs.segments_body] at hcut
  have hheads : r.head = s.head := AtomForm.tokens_injective hhead
  have hbodies : r.body = s.body := map_tokens_injective hr.body hs.body hcut.symm
  cases r
  cases s
  exact congr (congrArg RuleForm.mk hheads) hbodies

end Grammar

end RulePlan
