import Mathlib.Data.List.Forall2
import RulePlan.Equation
import RulePlan.Proofs.ExpressionLexemes
import RulePlan.Proofs.ExpressionReading
import RulePlan.Proofs.RenderedRule

/-!
# RulePlan.Proofs.FlaggedVariables — flagged tokens and the variables of the tree

An expression flags its tokens by name: a name is flagged if the tree reads a variable of that name
somewhere. Whether a token is a variable depends on its place, though, since a name in front of an
opening parenthesis is that of a function. The identifiers of the tree are the tokens that have a
role, one for one and in order, so flags and roles can be compared token by token. Every variable is
flagged. A function is flagged as well if a variable of the expression has its name, and then the
term of that variable is put in its place.
-/

namespace RulePlan

open Grammar

namespace Expression

/-! ## Roles of tokens -/

/-- Whether a token is an identifier: a name that is neither an operator nor a constant. -/
def isIdentifier (t : Token) : Bool :=
  t.kind == .ident && !operatorWords.contains t.text && !literals.contains t.text

/-- The role of a token in front of another: an identifier is a function in front of an opening
parenthesis, and otherwise a variable. -/
def role? (t : Token) (next : Option Token) : Option Role :=
  if isIdentifier t then
    some (if next.any (·.kind == .leftParen) then .callee else .var)
  else none

/-- The roles of tokens, place by place. -/
def roles : List Token → List (Option Role)
  | [] => []
  | t :: ts => role? t ts.head? :: roles ts

/-- The tokens that have a role, each with its name and its role. -/
def named (ts : List Token) : List (String × Role) :=
  (ts.zip (roles ts)).filterMap fun (t, role) => role.map (t.text, ·)

theorem named_cons (t : Token) (ts : List Token) :
    named (t :: ts) = ((role? t ts.head?).map (t.text, ·)).toList ++ named ts := by
  unfold named
  rw [roles, List.zip_cons_cons, List.filterMap_cons]
  cases role? t ts.head? <;> rfl

theorem getElem?_roles (ts : List Token) (i : Nat) :
    (roles ts)[i]? = ts[i]?.map (role? · ts[i + 1]?) := by
  induction ts generalizing i with
  | nil => rfl
  | cons t ts ih =>
    cases i with
    | zero =>
      rw [roles, List.head?_eq_getElem?]
      rfl
    | succ i => simpa only [roles, List.getElem?_cons_succ] using ih i

theorem mem_named_iff {ts : List Token} {x : String} {role : Role} :
    (x, role) ∈ named ts ↔ ∃ (i : Nat) (t : Token),
      ts[i]? = some t ∧ (roles ts)[i]? = some (some role) ∧ t.text = x := by
  rw [named, List.mem_filterMap]
  constructor
  · rintro ⟨⟨t, _⟩, hmem, hrole⟩
    obtain ⟨role, rfl, hpair⟩ := Option.map_eq_some_iff.1 hrole
    obtain ⟨rfl, rfl⟩ := Prod.mk.inj hpair
    obtain ⟨i, hi⟩ := List.mem_iff_getElem?.1 hmem
    obtain ⟨ht, hrole⟩ := List.getElem?_zip_eq_some.1 hi
    exact ⟨i, t, ht, hrole, rfl⟩
  · rintro ⟨i, t, ht, hrole, rfl⟩
    have hzip : (ts.zip (roles ts))[i]? = some (t, some role) :=
      List.getElem?_zip_eq_some.2 ⟨ht, hrole⟩
    exact ⟨_, List.mem_of_getElem? hzip, rfl⟩

/-- An identifier has a role wherever it stands. -/
theorem exists_role_iff {ts : List Token} {i : Nat} {t : Token} (ht : ts[i]? = some t) :
    (∃ role, (roles ts)[i]? = some (some role)) ↔ isIdentifier t = true := by
  rw [getElem?_roles, ht, Option.map_some, role?]
  split
  case isTrue h => simp [h]
  case isFalse h => simp [h]

/-! ## Roles and lexemes -/

theorem identifier?_lexeme (t : Token) (next : Option Token) :
    (lexeme t).identifier? (next.map lexeme) = (role? t next).map (t.text, ·) := by
  have hparen : next.map lexeme = some .leftParen ↔
      next.any (·.kind == .leftParen) = true := by
    cases next with
    | none => simp
    | some u => simp [lexeme_eq_leftParen_iff]
  by_cases hkind : t.kind = .ident
  · have hlexeme : lexeme t = .ofWord t.text := by rw [lexeme, hkind]
    have hrole : isIdentifier t
        = (!operatorWords.contains t.text && !literals.contains t.text) := by
      rw [isIdentifier, hkind]
      rfl
    rw [hlexeme, role?, hrole, Lexeme.ofWord]
    cases operatorWords.contains t.text with
    | true => rfl
    | false =>
      simp only [Bool.false_eq_true, if_false, Lexeme.identifier?, hparen]
      cases literals.contains t.text <;> rfl
  · have hrole : isIdentifier t = false := by simp [isIdentifier, hkind]
    rw [role?, hrole]
    cases hother : t.kind <;> first | exact absurd hother hkind | (rw [lexeme, hother]; rfl)

/-- The identifiers of the lexemes of tokens are the tokens that have a role. -/
theorem identifiers_map_lexeme {ts : List Token} (h : ∀ t ∈ ts, Writable t) :
    identifiers false (ts.map lexeme) = named ts := by
  induction ts with
  | nil => rfl
  | cons t ts ih =>
    have hpoint : (lexeme t == .op ".") = false := by
      simpa using (h t List.mem_cons_self).lexeme_ne_point
    rw [List.map_cons, identifiers, hpoint, named_cons, List.head?_map, identifier?_lexeme]
    exact congrArg _ (ih fun u hu => h u (List.mem_cons_of_mem t hu))

/-- The identifiers of a tree are the tokens that have a role in the expression it was read from. -/
theorem identifiers_eq_named {ts : List Token} (h : ∀ t ∈ ts, Writable t) {tree : Tree}
    (hread : read? (spell ts) = some tree) : tree.identifiers = named ts := by
  rw [← identifiers_of_read (ofChars?_spell_writable h) hread, identifiers_map_lexeme h]

/-! ## Flags -/

/-- The flags of an expression, place by place. -/
def flags (e : Expression) : List Bool := e.pieces.map Piece.isVariable

/-- How an expression is read from tokens. Its text is their spelling, from which the tree is read.
The identifiers of the tree are the tokens that have a role. A token is flagged iff it is a variable
or a function with the name of a variable, so the flags are those of the variables iff no function
has the name of a variable. Flagged tokens become the terms of variables of their names, and a
function stays as it is iff no variable has its name. -/
structure ReadFrom (ts : List Token) (tree : Tree) (e : Expression) : Prop where
  source_eq : e.source = spell ts
  read?_source : read? e.source = some tree
  identifiers_eq : tree.identifiers = named ts
  texts_eq : e.pieces.map Piece.text = ts.map Token.text
  flagged_iff : ∀ (i : Nat) (t : Token), ts[i]? = some t → (e.flags[i]? = some true ↔
    (roles ts)[i]? = some (some .var) ∨
      (roles ts)[i]? = some (some .callee) ∧ (t.text, .var) ∈ tree.identifiers)
  flags_eq_iff : e.flags = (roles ts).map (· == some .var) ↔
    ∀ f, (f, .callee) ∈ tree.identifiers → (f, .var) ∉ tree.identifiers
  operand_eq : ∀ (c : Equation.Columns) (i : Nat) (t : Token), ts[i]? = some t →
    (c.operands e)[i]? = some (if e.flags[i]? = some true
      then .reference t.text (c.term (.var t.text)) else .text t.text)
  callee_kept_iff : ∀ (c : Equation.Columns) (i : Nat) (t : Token), ts[i]? = some t →
    (roles ts)[i]? = some (some .callee) →
      ((c.operands e)[i]? = some (.text t.text) ↔ (t.text, .var) ∉ tree.identifiers)

/-- The flag of a token, given the identifiers of the tree. -/
theorem isVariable_ofToken_iff {ts : List Token} {tree : Tree} (h : tree.identifiers = named ts)
    {i : Nat} {t : Token} (ht : ts[i]? = some t) :
    (Piece.ofToken tree.reads t).isVariable = true ↔
      (roles ts)[i]? = some (some .var) ∨
        (roles ts)[i]? = some (some .callee) ∧ (t.text, .var) ∈ tree.identifiers := by
  have hflag : (Piece.ofToken tree.reads t).isVariable = true ↔
      t.kind = .ident ∧ (t.text, .var) ∈ tree.identifiers := by
    rw [Piece.ofToken, Bool.and_eq_true, beq_iff_eq, List.contains_iff_mem, Tree.reads_eq,
      mem_varNames]
    refine and_congr_right fun hkind => ?_
    rw [Token.text, hkind]
  have hkind : ∀ role, (roles ts)[i]? = some (some role) → t.kind = .ident := by
    intro role hrole
    have hidentifier := (exists_role_iff ht).1 ⟨role, hrole⟩
    simp only [isIdentifier, Bool.and_eq_true, beq_iff_eq] at hidentifier
    exact hidentifier.1.1
  rw [hflag, h]
  constructor
  · rintro ⟨hident, hvariable⟩
    -- some token of this spelling has a role, so this one has one as well
    obtain ⟨j, u, hu, hrole, htext⟩ := mem_named_iff.1 hvariable
    have hother := (exists_role_iff hu).1 ⟨_, hrole⟩
    have hidentifier : isIdentifier t = true := by
      simp only [isIdentifier, Bool.and_eq_true, htext] at hother ⊢
      exact ⟨⟨beq_iff_eq.2 hident, hother.1.2⟩, hother.2⟩
    obtain ⟨role, hrole⟩ := (exists_role_iff ht).2 hidentifier
    cases role with
    | var => exact .inl hrole
    | callee => exact .inr ⟨hrole, hvariable⟩
  · rintro (hrole | ⟨hrole, hvariable⟩)
    · exact ⟨hkind _ hrole, mem_named_iff.2 ⟨i, t, ht, hrole, rfl⟩⟩
    · exact ⟨hkind _ hrole, hvariable⟩

section Pieces

variable {ts : List Token} {tree : Tree} {e : Expression} {i : Nat} {t : Token}
  (hpieces : e.pieces = ts.map (Piece.ofToken tree.reads)) (h : tree.identifiers = named ts)

include hpieces

theorem getElem?_flags (ht : ts[i]? = some t) :
    e.flags[i]? = some (Piece.ofToken tree.reads t).isVariable := by
  rw [flags, hpieces, List.getElem?_map, List.getElem?_map, ht]
  rfl

theorem operand_eq (c : Equation.Columns) (ht : ts[i]? = some t) :
    (c.operands e)[i]? = some (if e.flags[i]? = some true
      then .reference t.text (c.term (.var t.text)) else .text t.text) := by
  rw [getElem?_flags hpieces ht, Equation.Columns.operands, hpieces, List.getElem?_map,
    List.getElem?_map, ht]
  simp only [Option.some_inj]
  rfl

include h

theorem flagged_iff (ht : ts[i]? = some t) :
    e.flags[i]? = some true ↔ (roles ts)[i]? = some (some .var) ∨
      (roles ts)[i]? = some (some .callee) ∧ (t.text, .var) ∈ tree.identifiers := by
  rw [getElem?_flags hpieces ht, Option.some_inj, isVariable_ofToken_iff h ht]

/-- Flags tell variables apart iff no function has the name of one. -/
theorem flags_eq_iff : e.flags = (roles ts).map (· == some .var) ↔
    ∀ f, (f, .callee) ∈ tree.identifiers → (f, .var) ∉ tree.identifiers := by
  constructor
  · intro hflags f hcallee hvariable
    obtain ⟨i, t, ht, hrole, rfl⟩ := mem_named_iff.1 (h ▸ hcallee)
    have hflag := (flagged_iff hpieces h ht).2 (.inr ⟨hrole, hvariable⟩)
    rw [hflags, List.getElem?_map, hrole] at hflag
    cases hflag
  · intro hdisjoint
    refine List.ext_getElem? fun i => ?_
    cases ht : ts[i]? with
    | none =>
      rw [flags, hpieces, List.getElem?_map, List.getElem?_map, List.getElem?_map,
        getElem?_roles, ht]
      rfl
    | some t =>
      obtain ⟨role, hrole⟩ : ∃ role, (roles ts)[i]? = some role :=
        ⟨_, by rw [getElem?_roles, ht, Option.map_some]⟩
      have hcallee : role = some .callee → (t.text, .var) ∉ tree.identifiers := by
        rintro rfl
        refine hdisjoint _ ?_
        rw [h]
        exact mem_named_iff.2 ⟨i, t, ht, hrole, rfl⟩
      have hflag := isVariable_ofToken_iff h ht
      rw [hrole, Option.some_inj, Option.some_inj,
        or_iff_left fun hshared => hcallee hshared.1 hshared.2] at hflag
      rw [getElem?_flags hpieces ht, List.getElem?_map, hrole, Option.map_some, Option.some_inj,
        Bool.eq_iff_iff, hflag, beq_iff_eq]

theorem callee_kept_iff (c : Equation.Columns) (ht : ts[i]? = some t)
    (hrole : (roles ts)[i]? = some (some .callee)) :
    (c.operands e)[i]? = some (.text t.text) ↔ (t.text, .var) ∉ tree.identifiers := by
  have hflag : e.flags[i]? = some true ↔ (t.text, .var) ∈ tree.identifiers := by
    rw [flagged_iff hpieces h ht, hrole]
    simp
  rw [operand_eq hpieces c ht, Option.some_inj, ← hflag]
  split
  case isTrue hflagged => simp [hflagged]
  case isFalse hflagged => simp [hflagged]

end Pieces

/-- The expression of tokens has their spelling and a piece for each of them. -/
theorem exists_tree_of_ofTokens? {ts : List Token} {e : Expression} (h : ofTokens? ts = some e) :
    ∃ tree, read? e.source = some tree ∧ e.source = spell ts
      ∧ e.pieces = ts.map (Piece.ofToken tree.reads) := by
  unfold ofTokens? variablesOf? at h
  obtain ⟨reads, hreads, he⟩ := Option.bind_eq_some_iff.1 h
  obtain ⟨tree, htree, rfl⟩ := Option.map_eq_some_iff.1 hreads
  obtain rfl := Option.some.inj he
  exact ⟨tree, htree, rfl, rfl⟩

/-- The expression of tokens is read from them. -/
theorem readFrom_of_ofTokens? {ts : List Token} (hts : ∀ t ∈ ts, Writable t) {e : Expression}
    (h : ofTokens? ts = some e) : ∃ tree, ReadFrom ts tree e := by
  obtain ⟨tree, htree, hsource, hpieces⟩ := exists_tree_of_ofTokens? h
  have hidentifiers := identifiers_eq_named hts (hsource ▸ htree)
  refine ⟨tree, ?_⟩
  exact
    { source_eq := hsource
      read?_source := htree
      identifiers_eq := hidentifiers
      texts_eq := by rw [hpieces, List.map_map]; rfl
      flagged_iff := fun _ _ ht => flagged_iff hpieces hidentifiers ht
      flags_eq_iff := flags_eq_iff hpieces hidentifiers
      operand_eq := fun c _ _ ht => operand_eq hpieces c ht
      callee_kept_iff := fun c _ _ ht => callee_kept_iff hpieces hidentifiers c ht }

end Expression

/-! ## Expressions of rules -/

/-- The expression of an assignment or a test. -/
def Element.expression? : Element → Option Expression
  | .literal _ => none
  | .assign _ value => some value
  | .test condition => some condition

/-- The expressions of a body, in order. -/
def Rule.expressions (r : Rule) : List Expression := r.body.filterMap Element.expression?

namespace Grammar

/-- The tokens of the expression of an element. -/
def ElementForm.expression? : ElementForm → Option (List Token)
  | .literal _ _ => none
  | .assign _ value => some value
  | .test condition => some condition

/-- The tokens of the expressions of a body, in order. -/
def RuleForm.expressions (r : RuleForm) : List (List Token) :=
  r.body.filterMap ElementForm.expression?

theorem filterMap_denoteBody (es : List ElementForm) (n : Nat) :
    (denoteBody n es).filterMap Element.expression?
      = (es.filterMap ElementForm.expression?).map expression := by
  induction es generalizing n with
  | nil => rfl
  | cons e es ih =>
    rw [denoteBody, List.filterMap_cons, List.filterMap_cons, ih]
    cases e <;> rfl

/-- The tokens of an expression of a rule are an expression, and they can be written. -/
theorem RuleForm.Valid.expression {form : RuleForm} (h : form.Valid)
    (hscanned : IsScanned form.tokens) {ts : List Token} (hts : ts ∈ form.expressions) :
    IsExpression ts ∧ ∀ t ∈ ts, Expression.Writable t := by
  obtain ⟨e, he, hexpression⟩ := List.mem_filterMap.1 hts
  have hvalid := h.body e he
  have hlexical := hscanned.element e he
  cases e with
  | literal negated atom => cases hexpression
  | assign target value =>
    obtain rfl := Option.some.inj hexpression
    refine ⟨hvalid, fun t ht => ⟨(hlexical t ?_).1, hvalid.inner t ht⟩⟩
    exact List.mem_cons_of_mem _ (List.mem_cons_of_mem _ ht)
  | test condition =>
    obtain rfl := Option.some.inj hexpression
    exact ⟨hvalid.toIsExpression, fun t ht => ⟨(hlexical t ht).1, hvalid.inner t ht⟩⟩

end Grammar

namespace Rule

/-- **A function is flagged iff a variable of its expression has its name.** Whatever text in valid
UTF-8 is parsed, the expressions of the rule are read from those of the text. In each of them, the
tokens that are variables are flagged. A function is flagged too, and replaced when the rule is made
an equation, iff the same expression reads a variable of the same name. So the flags are those of
the variables, place by place, iff no function has the name of a variable. -/
theorem flags_of_parse {symbols : SymbolTable} {line : Int} {text : String} {r : Rule}
    (h : (parse symbols line text).1 = .ok r) :
    ∃ form, Derives line text form ∧ form.denote line (Text.trim text) = r
      ∧ List.Forall₂ (fun ts e => ∃ tree, Expression.ReadFrom ts tree e)
        form.expressions r.expressions := by
  obtain ⟨form, hform, rfl⟩ := read_eq_ok_iff.1 h
  refine ⟨form, hform, rfl, ?_⟩
  obtain ⟨tokens, htokens, hsame, hvalid⟩ := hform
  have hscanned := hsame ▸ isScanned_of_tokenize htokens
  have hexpressions : (form.denote line (Text.trim text)).expressions
      = form.expressions.map expression := filterMap_denoteBody form.body 0
  rw [hexpressions, List.forall₂_map_right_iff, List.forall₂_same]
  intro ts hts
  obtain ⟨hexpression, hwritable⟩ := hvalid.expression hscanned hts
  obtain ⟨e, he⟩ := hexpression.accepted
  rw [expression_eq he]
  exact Expression.readFrom_of_ofTokens? hwritable he

/-- Nested calls, and a variable that is read twice. -/
theorem flags_of_parse_nested : ∃ r form,
    (parse .empty 1 "big(X, Z) :- num(X, Y), f(g(X), Y) > X, Z = max(Y, 2).").1 = .ok r
      ∧ Derives 1 "big(X, Z) :- num(X, Y), f(g(X), Y) > X, Z = max(Y, 2)." form
      ∧ r.expressions.map Expression.vars = [["X", "Y"], ["Y"]]
      ∧ List.Forall₂ (fun ts e => ∃ tree, Expression.ReadFrom ts tree e)
        form.expressions r.expressions := by
  have hread : (parse .empty 1
      "big(X, Z) :- num(X, Y), f(g(X), Y) > X, Z = max(Y, 2).").1.toOption.map
        (fun r => r.expressions.map Expression.vars) = some [["X", "Y"], ["Y"]] := by
    decide +kernel
  obtain ⟨r, hr, hvars⟩ := map_toOption_eq_some_iff.1 hread
  obtain ⟨form, hform, -, hforall⟩ := flags_of_parse hr
  exact ⟨r, form, hr, hform, hvars, hforall⟩

/-- A function with the name of a variable. The tree reads the first `f` as a function, but its
token is flagged, and in the equation driven by `b(X, f)` the column of the variable stands in its
place. -/
theorem flagged_callee_of_parse : ∃ r e,
    (parse .empty 1 "a(X) :- b(X, f), f(X) > f.").1 = .ok r ∧ r.expressions = [e]
      ∧ (Expression.read? e.source).map Expression.Tree.identifiers
        = some [("f", .callee), ("X", .var), ("f", .var)]
      ∧ e.pieces.map (fun p => (p.text, p.isVariable))
        = [("f", true), ("(", false), ("X", true), (")", false), (">", false), ("f", true)]
      ∧ Operand.renderAll ((Equation.Columns.ofArgs [.var "X", .var "f"]).operands e)
        = "$1 ($0) > $1" := by
  have hread : (parse .empty 1 "a(X) :- b(X, f), f(X) > f.").1.toOption.map
      (fun r => r.expressions.map fun e => decide
        ((Expression.read? e.source).map Expression.Tree.identifiers
            = some [("f", .callee), ("X", .var), ("f", .var)]
          ∧ e.pieces.map (fun p => (p.text, p.isVariable))
            = [("f", true), ("(", false), ("X", true), (")", false), (">", false), ("f", true)]
          ∧ Operand.renderAll ((Equation.Columns.ofArgs [.var "X", .var "f"]).operands e)
            = "$1 ($0) > $1")) = some [true] := by
    decide +kernel
  obtain ⟨r, hr, hexpressions⟩ := map_toOption_eq_some_iff.1 hread
  obtain ⟨e, he, hreadings⟩ := List.map_eq_singleton_iff.1 hexpressions
  exact ⟨r, e, hr, he, of_decide_eq_true hreadings⟩

end Rule

end RulePlan
