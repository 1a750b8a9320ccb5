import RulePlan.Proofs.ViewShapes

/-!
# RulePlan.Proofs.ClosedEquations — equations can be run as they stand

An equation is closed if whatever it mentions is at hand when it runs: a column is one of the
driving tuple where a variable was placed, a free variable is bound by the lookup, and in the head
also by the assignment. Rules are checked for safety before they are compiled, and the rewriting
depends on which atom drives, so closedness joins the two: each variable of a safe rule is in one of
its positive atoms, and these are exactly the driving and the consulted one.

The first part says of every equation in a plan which rule and atoms it was made from, for any fact
that the registry of views keeps along the way.
-/

namespace RulePlan

/-! ## Where the equations of a plan come from -/

namespace Compilation

variable {p : Program} {Q : ViewRegistry → Prop} {P : Equation → Prop}

/-- A compilation keeps a property of the registry, and its equations have a property. -/
def Upholds (Q : ViewRegistry → Prop) (P : Equation → Prop) (c : Compilation) : Prop :=
  Q c.registry ∧ ∀ equations, c.result = .ok equations → ∀ e ∈ equations, P e

theorem Upholds.andThen {c : Compilation} {next : ViewRegistry → Compilation}
    (h : c.Upholds Q P) (hnext : ∀ registry, Q registry → (next registry).Upholds Q P) :
    (c.andThen next).Upholds Q P := by
  obtain ⟨hregistry, hequations⟩ := h
  cases hresult : c.result with
  | error d =>
    rw [andThen_of_error hresult]
    exact ⟨hregistry, nofun⟩
  | ok equations =>
    rw [andThen_of_ok hresult]
    obtain ⟨hregistry', hmore⟩ := hnext c.registry hregistry
    refine ⟨hregistry', ?_⟩
    intro all hall e he
    obtain ⟨more, hnextResult, rfl⟩ := map_eq_ok_iff.1 hall
    rcases List.mem_append.1 he with he | he
    · exact hequations equations hresult e he
    · exact hmore more hnextResult e he

theorem ofRules_upholds
    (hrule : ∀ registry, Q registry → ∀ r i, p.rules[i]? = some r →
      (ofRule p registry r (i + 1)).Upholds Q P)
    (rules : List (Rule × Nat)) (hrules : ∀ ri ∈ rules, p.rules[ri.2]? = some ri.1) :
    ∀ registry, Q registry → (ofRules p registry rules).Upholds Q P := by
  induction rules with
  | nil =>
    intro registry hregistry
    refine ⟨hregistry, ?_⟩
    rintro equations ⟨⟩
    exact nofun
  | cons ri rules ih =>
    intro registry hregistry
    refine (hrule registry hregistry ri.1 ri.2 (hrules ri List.mem_cons_self)).andThen ?_
    exact ih fun qj hqj => hrules qj (List.mem_cons_of_mem ri hqj)

/-- What is to be shown of the rules of an accepted program: of the equation of a sole positive
atom, and of the lookups between two, with the names that the registry gives. -/
theorem ofRule_upholds (hp : p.Accepted) {r : Rule} (hr : r ∈ p.rules) {number : Nat}
    (hunary : ∀ a, r.positive = [a] → P (.ofRule r number a none))
    (hbinary : ∀ registry, Q registry → ∀ orientation a b,
      (r.positive = [a, b] ∨ r.positive = [b, a]) →
        (binary p registry r number orientation a b).Upholds Q P)
    {registry : ViewRegistry} (hregistry : Q registry) :
    (ofRule p registry r number).Upholds Q P := by
  rcases positive_cases (hp.safe r hr) with ⟨a, hpos⟩ | ⟨a, b, hpos⟩
  · rw [ofRule_unary hp hr hpos registry number]
    refine ⟨hregistry, ?_⟩
    rintro equations ⟨⟩ e he
    rw [List.mem_singleton.1 he]
    exact hunary a hpos
  · rw [ofRule_joined hp hr hpos registry number]
    refine (hbinary registry hregistry .firstDrives a b (.inl hpos)).andThen ?_
    exact fun registry' hregistry' => hbinary registry' hregistry' .secondDrives b a (.inr hpos)

end Compilation

theorem Stratum.getElem?_of_placed {p : Program} {s : Stratum} :
    ∀ ri ∈ s.placed p, p.rules[ri.2]? = some ri.1 := by
  intro ri hri
  obtain ⟨i, -, hi⟩ := List.mem_filterMap.1 hri
  obtain ⟨r, hr, rfl⟩ := Option.map_eq_some_iff.1 hi
  exact hr

/-- What a stratum that compiles consists of. -/
theorem StratumPlan.parts_of_ofStratum {p : Program} {order : EvalOrder} {registry : ViewRegistry}
    {s : Stratum} {plan : StratumPlan} (h : (ofStratum p order registry s).result = .ok plan) :
    (Compilation.ofRules p registry (s.placed p)).result = .ok plan.equations
      ∧ plan.index = s.index ∧ plan.rules = s.members p
      ∧ (∃ members, plan.order = order.restrict members)
      ∧ plan.views = .ofEquations plan.equations (ofStratum p order registry s).registry := by
  unfold ofStratum at h ⊢
  dsimp only at h ⊢
  rw [← Stratum.map_fst_placed]
  unfold Stratum.placed
  revert h
  cases (Compilation.ofRules p registry _).result with
  | error d => exact nofun
  | ok equations =>
    rintro ⟨⟩
    exact ⟨rfl, rfl, rfl, ⟨_, rfl⟩, rfl⟩

/-- A stratum upholds a property of its equations and one of the registry that its views are taken
from; its rules are those of a program and its predicates are in the order of it. -/
structure StratumPlan.Upholds (Q : ViewRegistry → Prop) (P : Equation → Prop) (p : Program)
    (order : EvalOrder) (s : StratumPlan) : Prop where
  index_lt : s.index < p.rules.length
  rules : ∀ r ∈ s.rules, r ∈ p.rules
  equations : ∀ e ∈ s.equations, P e
  views : ∃ registry, Q registry ∧ s.views = .ofEquations s.equations registry
  order : ∃ members, s.order = order.restrict members

namespace Plan

/-- What compilation upholds rule by rule, every stratum of a plan upholds. -/
theorem strata_uphold {Q : ViewRegistry → Prop} {P : Equation → Prop} {request : Request}
    {plan : Plan} (h : (compile request).result = .ok plan) (hempty : Q .empty)
    (hrule : ∀ registry, Q registry → ∀ r i, plan.program.rules[i]? = some r →
      (Compilation.ofRule plan.program registry r (i + 1)).Upholds Q P) :
    ∀ s ∈ plan.strata, s.Upholds Q P plan.program plan.order := by
  obtain ⟨p, strata, passes, plans, -, hlayering, hplans, -, rfl⟩ := compile_eq_ok_iff.1 h
  have hindex : ∀ s ∈ strata, s.index < p.rules.length :=
    fun _ => Layering.index_lt_of_ofProgram hlayering
  dsimp only at hrule ⊢
  obtain ⟨final, hrun⟩ := strataStage_eq_ok_iff.1 hplans
  generalize ViewRegistry.empty = registry at hrun hempty
  clear h hlayering hplans
  -- the registry that one stratum leaves is the one that the next starts with
  induction hrun with
  | nil registry => exact nofun
  | @cons registry final s strata first more hfirst _ ih =>
    obtain ⟨hequations, hnumber, hrules, horder, hviews⟩ := StratumPlan.parts_of_ofStratum hfirst
    obtain ⟨hregistry, hall⟩ := Compilation.ofRules_upholds hrule (s.placed p)
      Stratum.getElem?_of_placed registry hempty
    obtain ⟨hlt, hlts⟩ := List.forall_mem_cons.1 hindex
    intro t ht
    rcases List.mem_cons.1 ht with rfl | ht
    · refine ⟨hnumber ▸ hlt, ?_, hall t.equations hequations, ⟨_, hregistry, hviews⟩, horder⟩
      intro r hr
      rw [hrules, ← Stratum.map_fst_placed] at hr
      obtain ⟨ri, hri, rfl⟩ := List.mem_map.1 hr
      exact Stratum.mem_rules_of_placed ri hri
    · exact ih hlts hregistry t ht

end Plan

/-! ## Columns -/

namespace Equation.Columns

theorem positions_add_var (c : Columns) (y : String) (i : Nat) :
    (c.add (.var y, i)).positions
      = c.positions ++ if (c.find? y).isSome then [] else [⟨y, i⟩] := by
  unfold add
  cases hy : c.find? y <;> simp [hy]

/-- A variable is placed at its first column and nowhere else. -/
theorem mem_positions_ofArgs_iff {args : List Argument} {q : Placement} :
    q ∈ (ofArgs args).positions ↔ args.idxOf? (.var q.name) = some q.column := by
  induction args using List.reverseRecOn with
  | nil => exact iff_of_false List.not_mem_nil nofun
  | append_singleton args arg ih =>
    rw [ofArgs_append_singleton, idxOf?_append_singleton]
    cases arg with
    | const v =>
      show q ∈ (ofArgs args).positions ↔ _
      rw [ih]
      simp
    | var y =>
      rw [positions_add_var, find?_ofArgs, List.mem_append, ih]
      cases hy : args.idxOf? (.var y) with
      | some first =>
        by_cases hq : y = q.name
        · simp [← hq, hy]
        · simp [hq]
      | none =>
        obtain ⟨name, column⟩ := q
        by_cases hq : y = name
        · simp [← hq, hy, eq_comm]
        · simp [hq, Ne.symm hq]

theorem column_lt_of_mem_positions {args : List Argument} {q : Placement}
    (h : q ∈ (ofArgs args).positions) : q.column < args.length :=
  (List.idxOf?_eq_some_iff.1 (mem_positions_ofArgs_iff.1 h)).1

/-- A term that is a column is the place of a variable. -/
theorem exists_placement_of_term {args : List Argument} {arg : Argument} {i : Int}
    (h : (ofArgs args).term arg = .column i) :
    ∃ q ∈ (ofArgs args).positions, (q.column : Int) = i := by
  cases arg with
  | const v => cases h
  | var x =>
    cases hx : (ofArgs args).find? x with
    | none =>
      rw [term_var_of_find?_none hx] at h
      cases h
    | some first =>
      rw [term_var_of_find? hx] at h
      refine ⟨⟨x, first⟩, ?_, Term.column.inj h⟩
      rw [mem_positions_ofArgs_iff, ← find?_ofArgs]
      exact hx

/-- A selected column is one of the driving atom and is selected to equal the place of a variable,
or a constant. -/
theorem selection_bound {args : List Argument} {s : Selection}
    (h : s ∈ (ofArgs args).selections) :
    s.column < args.length ∧ s.equals.isFree = false
      ∧ ∀ i, s.equals = .column i → ∃ q ∈ (ofArgs args).positions, (q.column : Int) = i := by
  rw [selections_ofArgs, List.mem_filterMap] at h
  obtain ⟨⟨arg, i⟩, hplace, hs⟩ := h
  have hlt : i < args.length :=
    (List.getElem?_eq_some_iff.1 (List.mk_mem_zipIdx_iff_getElem?.1 hplace)).1
  cases arg with
  | const v =>
    obtain rfl := Option.some.inj hs
    exact ⟨hlt, rfl, nofun⟩
  | var x =>
    obtain ⟨first, hfirst, rfl⟩ := Option.map_eq_some_iff.1 hs
    refine ⟨hlt, rfl, ?_⟩
    rintro j ⟨⟩
    exact ⟨⟨x, first⟩, mem_positions_ofArgs_iff.2 (Option.filter_eq_some_iff.1 hfirst).1, rfl⟩

theorem mem_positions_of_mem_common {driving args : List Argument} {q : Placement}
    (h : q ∈ (ofArgs driving).common args) : q ∈ (ofArgs driving).positions := by
  obtain ⟨name, -, hname⟩ := List.mem_filterMap.1 h
  obtain ⟨i, hi, rfl⟩ := Option.map_eq_some_iff.1 hname
  rw [mem_positions_ofArgs_iff, ← find?_ofArgs]
  exact hi

end Equation.Columns

theorem Arrangement.mem_terms_ofTerms {terms : List Term} {t : Term} :
    t ∈ (ofTerms terms).terms ↔ t ∈ terms := by
  show t ∈ (ofTerms terms).combination.filterMap (terms[·]?) ↔ _
  rw [List.mem_filterMap, List.mem_iff_getElem?]
  constructor
  · rintro ⟨i, -, hi⟩
    exact ⟨i, hi⟩
  · rintro ⟨i, hi⟩
    refine ⟨i, (combination_perm terms).mem_iff.2 ?_, hi⟩
    exact List.mem_range.2 (List.getElem?_eq_some_iff.1 hi).1

/-! ## Closed equations -/

/-- The term that a piece of an expression stands for, if it is a variable. -/
def Operand.term? : Operand → Option Term
  | .text _ => none
  | .reference _ term => some term

namespace Equation

/-- The pieces of the condition and of the assigned expression. -/
def operands (e : Equation) : List Operand :=
  e.condition.getD [] ++ (e.assignment.map Prod.snd).getD []

/-- The terms of an equation apart from its head: in selections, in the lookup, in expressions and
in negated atoms. -/
def bodyTerms (e : Equation) : List Term :=
  e.selections.map Selection.equals ++ e.consulting.toList.flatMap (fun c => c.args ++ c.view)
    ++ e.operands.filterMap Operand.term? ++ e.negated.flatMap NegatedAtom.args

/-- The lookup binds a variable. -/
def FreeInView (e : Equation) (x : String) : Prop :=
  ∃ c, e.consulting = some c ∧ .argument (.var x) ∈ c.view

/-- The equation assigns a variable. -/
def Assigns (e : Equation) (x : String) : Prop := ∃ value, e.assignment = some (x, value)

/-- Whatever an equation mentions is at hand when it runs. -/
structure Closed (p : Program) (e : Equation) : Prop where
  arity : p.arity? e.driving = some (e.drivingArgs.length : Int)
  positions_lt : ∀ q ∈ e.positions, q.column < e.drivingArgs.length
  selections_lt : ∀ s ∈ e.selections, s.column < e.drivingArgs.length
  columns : ∀ i, .column i ∈ e.headArgs ++ e.bodyTerms →
    ∃ q ∈ e.positions, (q.column : Int) = i
  common : ∀ c, e.consulting = some c → ∀ q ∈ c.common, q ∈ e.positions
  head : ∀ x, .argument (.var x) ∈ e.headArgs → e.FreeInView x ∨ e.Assigns x
  expressions : ∀ x, .argument (.var x) ∈ e.operands.filterMap Operand.term? → e.FreeInView x
  negated : ∀ n ∈ e.negated, ∀ t ∈ n.args, t.isColumn ∨ t.isConstant
  unary_head : e.consulting = none → ∀ x, .argument (.var x) ∈ e.headArgs → e.Assigns x
  unary_body : e.consulting = none → ∀ t ∈ e.bodyTerms, t.isFree = false
  binary : e.consulting ≠ none → e.negated = []

/-- What an equation of a rule may consult: nothing if the driving atom is the only positive one,
else the other one. -/
inductive Lookup (r : Rule) (a : Atom) : Option Consultation → Prop
  | alone (hpos : r.positive = [a]) : Lookup r a none
  | joined {b : Atom} (hpos : r.positive = [a, b] ∨ r.positive = [b, a]) (orientation : Orientation)
      (viewName viewAlias : String) :
      Lookup r a (some (.between orientation a b viewName viewAlias))

section OfRule

variable {r : Rule} {a : Atom} {consulting : Option Consultation} {number : Nat}

/-- A variable of the positive atoms that the driving atom does not have is free in the lookup. -/
theorem Lookup.mem_view (h : Lookup r a consulting) {x : String} (hx : x ∈ r.positiveVariables)
    (hfree : (Columns.ofArgs a.args).find? x = none) :
    ∃ c, consulting = some c ∧ .argument (.var x) ∈ c.view := by
  have hdriving : x ∉ a.vars := by
    rw [Atom.mem_vars]
    exact Columns.find?_ofArgs_eq_none_iff.1 hfree
  unfold Rule.positiveVariables at hx
  cases h with
  | alone hpos =>
    rw [hpos, List.flatMap_singleton] at hx
    exact absurd hx hdriving
  | @joined b hpos orientation viewName viewAlias =>
    have hb : x ∈ b.vars := by
      rcases hpos with hpos | hpos
      · rw [hpos, List.flatMap_cons, List.flatMap_singleton, List.mem_append] at hx
        exact hx.resolve_left hdriving
      · rw [hpos, List.flatMap_cons, List.flatMap_singleton, List.mem_append] at hx
        exact hx.resolve_right hdriving
    refine ⟨_, rfl, Arrangement.mem_terms_ofTerms.2 ?_⟩
    exact List.mem_map.2 ⟨.var x, Atom.mem_vars.1 hb, Columns.term_var_of_find?_none hfree⟩

/-- Two positive atoms leave no room for a negated one. -/
theorem Lookup.negative_eq_nil (hsafe : r.Safe) {c : Consultation} (h : Lookup r a (some c)) :
    r.negative = [] := by
  have htwo : r.positive.length = 2 := by
    cases h with
    | joined hpos =>
      rcases hpos with hpos | hpos
      · rw [hpos, List.length_cons, List.length_singleton]
      · rw [hpos, List.length_cons, List.length_singleton]
  have hsplit : r.positive.length + r.negative.length = r.literals.length := by
    have hlength := r.literals.length_eq_length_filter_add Literal.negated
    unfold Rule.positive Rule.negative
    rw [List.length_map, List.length_map]
    omega
  have hle := hsafe.literals_le
  exact List.length_eq_zero_iff.1 (by omega)

/-- The terms in expressions are those of variables that positive atoms bind. -/
theorem exists_variable_of_mem_operands (hsafe : r.Safe) (hflagged : ∀ e ∈ r.body, e.Flagged)
    {t : Term} (h : t ∈ (ofRule r number a consulting).operands.filterMap Operand.term?) :
    ∃ x ∈ r.positiveVariables, (Columns.ofArgs a.args).term (.var x) = t := by
  have hexpression : ∀ e : Expression, e.Flagged → (∀ x ∈ e.vars, x ∈ r.positiveVariables) →
      t ∈ ((Columns.ofArgs a.args).operands e).filterMap Operand.term? →
      ∃ x ∈ r.positiveVariables, (Columns.ofArgs a.args).term (.var x) = t := by
    intro e hflags hbound ht
    obtain ⟨o, ho, hterm⟩ := List.mem_filterMap.1 ht
    obtain ⟨piece, hpiece, rfl⟩ := List.mem_map.1 ho
    split at hterm
    case isTrue hvariable =>
      exact ⟨piece.text, hbound _ (hflags piece hpiece hvariable), Option.some.inj hterm⟩
    case isFalse => cases hterm
  unfold operands ofRule at h
  rw [List.filterMap_append, List.mem_append] at h
  rcases h with h | h
  · cases htest : r.test? with
    | none => simp [htest] at h
    | some e =>
      have hmem : e ∈ r.tests := (Rule.test?_eq_some_iff hsafe.tests_le).1 htest
      rw [htest] at h
      exact hexpression e (Rule.flagged_of_mem_tests hflagged hmem) (hsafe.test_bound e hmem) h
  · cases hassign : r.assignment? with
    | none => simp [hassign] at h
    | some te =>
      have hmem : te ∈ r.assignments :=
        (Rule.assignment?_eq_some_iff hsafe.assignments_le).1 hassign
      rw [hassign] at h
      exact hexpression te.2 (Rule.flagged_of_mem_assignments hflagged hmem)
        (hsafe.assignment_bound te.1 te.2 hmem) h

theorem not_free_of_negative (hsafe : r.Safe) (h : Lookup r a consulting) {n : Atom}
    (hn : n ∈ r.negative) {arg : Argument} (harg : arg ∈ n.args) :
    ((Columns.ofArgs a.args).term arg).isFree = false := by
  cases consulting with
  | some c => exact absurd hn (by rw [h.negative_eq_nil hsafe]; exact List.not_mem_nil)
  | none =>
    cases arg with
    | const v => rfl
    | var x =>
      cases hx : (Columns.ofArgs a.args).find? x with
      | some i =>
        rw [Columns.term_var_of_find? hx]
        rfl
      | none =>
        have hbound := hsafe.negative_bound n hn x (Atom.mem_vars.2 harg)
        obtain ⟨c, hc, -⟩ := h.mem_view hbound hx
        cases hc

/-- Where the terms of an equation apart from its head come from. -/
theorem bodyTerms_cases (hsafe : r.Safe) (hflagged : ∀ e ∈ r.body, e.Flagged)
    (h : Lookup r a consulting) {t : Term} (ht : t ∈ (ofRule r number a consulting).bodyTerms) :
    (∃ s ∈ (Columns.ofArgs a.args).selections, s.equals = t)
      ∨ (∃ arg, (Columns.ofArgs a.args).term arg = t ∧ ∃ c, consulting = some c)
      ∨ (∃ x ∈ r.positiveVariables, (Columns.ofArgs a.args).term (.var x) = t)
      ∨ ∃ n ∈ r.negative, ∃ arg ∈ n.args, (Columns.ofArgs a.args).term arg = t := by
  unfold bodyTerms at ht
  simp only [List.mem_append] at ht
  rcases ht with ((hselection | hlookup) | hexpression) | hnegated
  · exact .inl (List.mem_map.1 hselection)
  · obtain ⟨c, hc, hterm⟩ := List.mem_flatMap.1 hlookup
    have hsome : consulting = some c := Option.mem_toList.1 hc
    cases h with
    | alone => cases hsome
    | @joined b hpos orientation viewName viewAlias =>
      obtain rfl := Option.some.inj hsome
      have hargs : t ∈ b.args.map (Columns.ofArgs a.args).term :=
        (List.mem_append.1 hterm).elim id Arrangement.mem_terms_ofTerms.1
      obtain ⟨arg, -, harg⟩ := List.mem_map.1 hargs
      exact .inr (.inl ⟨arg, harg, _, rfl⟩)
  · exact .inr (.inr (.inl (exists_variable_of_mem_operands hsafe hflagged hexpression)))
  · obtain ⟨n, hn, hterm⟩ := List.mem_flatMap.1 hnegated
    obtain ⟨atom, hatom, rfl⟩ := List.mem_map.1 hn
    obtain ⟨arg, harg, heq⟩ := List.mem_map.1 hterm
    exact .inr (.inr (.inr ⟨atom, hatom, arg, harg, heq⟩))

/-- A variable of the positive atoms is a column, or else the lookup binds it. -/
theorem Lookup.mem_view_of_term (h : Lookup r a consulting) {x y : String}
    (hx : x ∈ r.positiveVariables)
    (hterm : (Columns.ofArgs a.args).term (.var x) = .argument (.var y)) :
    ∃ c, consulting = some c ∧ .argument (.var y) ∈ c.view := by
  obtain ⟨hxy, hnone⟩ := Columns.term_eq_var_iff.1 hterm
  obtain rfl := Argument.var.inj hxy
  exact h.mem_view hx hnone

/-- A free variable of the head is bound by the lookup or assigned. -/
theorem free_or_assigned_of_head (hsafe : r.Safe) (h : Lookup r a consulting) {x : String}
    (hx : .argument (.var x) ∈ (ofRule r number a consulting).headArgs) :
    (ofRule r number a consulting).FreeInView x ∨ (ofRule r number a consulting).Assigns x := by
  obtain ⟨arg, harg, hterm⟩ := List.mem_map.1 hx
  obtain ⟨rfl, hnone⟩ := Columns.term_eq_var_iff.1 hterm
  rcases hsafe.head_bound x (Atom.mem_vars.2 harg) with hbound | ⟨value, hvalue⟩
  · exact .inl (h.mem_view hbound hnone)
  · have hassign := (Rule.assignment?_eq_some_iff hsafe.assignments_le).2 hvalue
    exact .inr ⟨_, congrArg (Option.map _) hassign⟩

/-- Every column that is mentioned is one where a variable was placed. -/
theorem exists_position_of_column (hsafe : r.Safe) (hflagged : ∀ e ∈ r.body, e.Flagged)
    (h : Lookup r a consulting) {i : Int} (hi : .column i ∈
      (ofRule r number a consulting).headArgs ++ (ofRule r number a consulting).bodyTerms) :
    ∃ q ∈ (ofRule r number a consulting).positions, (q.column : Int) = i := by
  rcases List.mem_append.1 hi with hhead | hbody
  · obtain ⟨arg, -, harg⟩ := List.mem_map.1 hhead
    exact Columns.exists_placement_of_term harg
  · rcases bodyTerms_cases hsafe hflagged h hbody with
      ⟨s, hs, hequals⟩ | ⟨arg, harg, -⟩ | ⟨x, -, hx⟩ | ⟨n, -, arg, -, harg⟩
    · exact (Columns.selection_bound hs).2.2 i hequals
    · exact Columns.exists_placement_of_term harg
    · exact Columns.exists_placement_of_term hx
    · exact Columns.exists_placement_of_term harg

/-- Without a lookup, no variable is free outside of the head. -/
theorem not_free_of_alone (hsafe : r.Safe) (hflagged : ∀ e ∈ r.body, e.Flagged)
    (h : Lookup r a none) {t : Term} (ht : t ∈ (ofRule r number a none).bodyTerms) :
    t.isFree = false := by
  rcases bodyTerms_cases hsafe hflagged h ht with
    ⟨s, hs, rfl⟩ | ⟨arg, -, c, hc⟩ | ⟨x, hx, rfl⟩ | ⟨n, hn, arg, harg, rfl⟩
  · exact (Columns.selection_bound hs).2.1
  · cases hc
  · match hterm : (Columns.ofArgs a.args).term (.var x) with
    | .column i => rfl
    | .argument (.const v) => rfl
    | .argument (.var y) =>
      obtain ⟨c, hc, -⟩ := h.mem_view_of_term hx hterm
      cases hc
  · exact not_free_of_negative hsafe h hn harg

/-- The equation of a safe rule is closed, whichever positive atom drives it. -/
theorem closed_ofRule {p : Program} (hp : p.Accepted) (hr : r ∈ p.rules) (ha : a ∈ r.positive)
    (h : Lookup r a consulting) (number : Nat) : (ofRule r number a consulting).Closed p := by
  have hsafe := hp.safe r hr
  have hflagged := hp.flagged r hr
  refine
    { arity := hp.arity r hr a (Compilation.positive_subset_atoms ha)
      positions_lt := fun q hq => Columns.column_lt_of_mem_positions hq
      selections_lt := fun s hs => (Columns.selection_bound hs).1
      columns := fun i hi => exists_position_of_column hsafe hflagged h hi
      common := ?_
      head := fun x hx => free_or_assigned_of_head hsafe h hx
      expressions := ?_
      negated := ?_
      unary_head := ?_
      unary_body := ?_
      binary := ?_ }
  · intro c hc q hq
    cases h with
    | alone => cases hc
    | joined =>
      obtain rfl := Option.some.inj hc
      exact Columns.mem_positions_of_mem_common hq
  · intro x hx
    obtain ⟨y, hy, hterm⟩ := exists_variable_of_mem_operands hsafe hflagged hx
    exact h.mem_view_of_term hy hterm
  · intro n hn t ht
    obtain ⟨atom, hatom, rfl⟩ := List.mem_map.1 hn
    obtain ⟨arg, harg, rfl⟩ := List.mem_map.1 ht
    have hfree := not_free_of_negative hsafe h hatom harg
    match hterm : (Columns.ofArgs a.args).term arg with
    | .column i => exact .inl rfl
    | .argument (.const v) => exact .inr rfl
    | .argument (.var x) =>
      rw [hterm] at hfree
      cases hfree
  · intro hnone x hx
    refine (free_or_assigned_of_head hsafe h hx).resolve_left ?_
    rintro ⟨c, hc, -⟩
    exact nomatch hnone.symm.trans hc
  · intro hnone t ht
    obtain rfl : consulting = none := hnone
    exact not_free_of_alone hsafe hflagged h ht
  · intro hsome
    cases consulting with
    | none => exact absurd rfl hsome
    | some c =>
      show r.negative.map _ = []
      rw [h.negative_eq_nil hsafe, List.map_nil]

end OfRule

end Equation

namespace Plan

/-- **Every equation of a plan is closed.** Its columns are below the recorded arity of the driving
predicate and are places of variables; free variables of the head are bound by the lookup or by the
assignment, those of condition and assigned expression by the lookup; negated atoms have columns and
constants only. Without a lookup nothing is free but the assigned variable in the head, and with one
there are no negated atoms. -/
theorem closed_of_compile {request : Request} {plan : Plan}
    (h : (compile request).result = .ok plan) :
    ∀ e ∈ plan.equations, e.Closed plan.program := by
  have hacc := Program.accepted_of_ofSource (covers_of_compile h).1
  have hrule : ∀ registry : ViewRegistry, True → ∀ r i, plan.program.rules[i]? = some r →
      (Compilation.ofRule plan.program registry r (i + 1)).Upholds (fun _ => True)
        fun e => e.Closed plan.program := by
    intro registry _ r i hi
    have hr := List.mem_of_getElem? hi
    refine Compilation.ofRule_upholds hacc hr ?_ ?_ trivial
    · intro a hpos
      have ha : a ∈ r.positive := by rw [hpos]; exact List.mem_cons_self
      exact Equation.closed_ofRule hacc hr ha (.alone hpos) (i + 1)
    · intro registry' _ orientation a b hpos
      have hmem : a ∈ r.positive ∧ b ∈ r.positive := by
        rcases hpos with hpos | hpos <;> simp [hpos]
      have harity := hacc.arity r hr b (Compilation.positive_subset_atoms hmem.2)
      refine ⟨trivial, ?_⟩
      intro equations hequations e he
      rw [(Compilation.binary_eq harity registry' r (i + 1) orientation a).2] at hequations
      obtain rfl := Except.ok.inj hequations
      rw [List.mem_singleton.1 he]
      exact Equation.closed_ofRule hacc hr hmem.1 (.joined hpos orientation _ _) (i + 1)
  intro e he
  obtain ⟨s, hs, hes⟩ := List.mem_flatMap.1 he
  exact (strata_uphold h trivial hrule s hs).equations e hes

/-- Costs along an edge, with a lookup, a selection and an assigned variable in the head. -/
def stepsRequest : Request :=
  ⟨"steps.dl", "steps(X, N) :- edge(X, Y, 3), cost(Y, M), N = M + 1.", [], .failFast⟩

theorem closed_of_compile_steps : ∃ plan, (compile stepsRequest).result = .ok plan
    ∧ ∃ e ∈ plan.equations, e.driving = "edge" ∧ e.Closed plan.program := by
  obtain ⟨plan, hplan⟩ := compile_isOk_of_negatesLast (r := stepsRequest) (by decide +kernel)
  obtain ⟨hsource, hcovers⟩ := covers_of_compile hplan
  have hread : ∃ r ∈ plan.program.rules, ∃ a ∈ r.positive, a.predicate = "edge" := by
    rw [Program.rules_of_ofSource hsource]
    decide +kernel
  obtain ⟨r, hr, a, ha, hedge⟩ := hread
  obtain ⟨e, he, hstands⟩ := hcovers.complete r hr a ha
  exact ⟨plan, hplan, e, he, hstands.driving.trans hedge, closed_of_compile hplan e he⟩

end Plan

end RulePlan
