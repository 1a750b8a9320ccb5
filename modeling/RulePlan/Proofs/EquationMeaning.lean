import Mathlib.Logic.Function.Basic
import RulePlan.Proofs.Acceptance
import RulePlan.Proofs.Columns
import RulePlan.Proofs.Derivation

/-!
# RulePlan.Proofs.EquationMeaning — an equation derives what its rule derives

The declarative reading of a rule quantifies over valuations; the equation reads a driving tuple and
the variables bound by a lookup. The bridge is one fact about terms: if the driving tuple is the
driving atom under a valuation, and the lookup bound the remaining variables as the valuation has
them, then every rewritten argument has the value of the argument itself. From it the whole right
side of an equation (negated atoms, condition, assignment, head) means what the rule means, and what
is left is that driving tuples that pass the selections, and consulted tuples that the view finds,
are exactly the instances of their atoms.
-/

namespace RulePlan

/-! ## What a valuation is asked for -/

theorem Atom.under_congr {a : Atom} {σ τ : Valuation} (h : ∀ x ∈ a.vars, σ x = τ x) :
    a.under σ = a.under τ := by
  unfold Atom.under
  refine List.map_congr_left ?_
  intro arg harg
  cases arg with
  | const v => rfl
  | var x => exact h x (Atom.mem_vars.2 harg)

theorem Expression.under_congr {e : Expression} (hflag : e.Flagged) {σ τ : Valuation}
    (h : ∀ x ∈ e.vars, σ x = τ x) : e.under σ = e.under τ := by
  unfold Expression.under
  refine List.map_congr_left ?_
  intro p hp
  by_cases hvar : p.isVariable = true
  · simp only [hvar, if_true]
    rw [h p.text (hflag p hp hvar)]
  · simp [hvar]

namespace Rule

theorem flagged_of_mem_tests {r : Rule} (hflag : ∀ e ∈ r.body, e.Flagged) {e : Expression}
    (he : e ∈ r.tests) : e.Flagged := by
  obtain ⟨element, helement, heq⟩ := List.mem_filterMap.1 he
  cases element with
  | literal l => cases heq
  | assign target value => cases heq
  | test condition =>
    obtain rfl := Option.some.inj heq
    exact hflag _ helement

theorem flagged_of_mem_assignments {r : Rule} (hflag : ∀ e ∈ r.body, e.Flagged)
    {target : String} {e : Expression} (he : (target, e) ∈ r.assignments) : e.Flagged := by
  obtain ⟨element, helement, heq⟩ := List.mem_filterMap.1 he
  cases element with
  | literal l => cases heq
  | test condition => cases heq
  | assign target' value =>
    obtain ⟨rfl, rfl⟩ := Prod.mk.inj (Option.some.inj heq)
    exact hflag _ helement

theorem mem_positiveVariables {r : Rule} {x : String} :
    x ∈ r.positiveVariables ↔ ∃ a ∈ r.positive, x ∈ a.vars := by
  unfold positiveVariables
  rw [List.mem_flatMap]

/-- No assigned variable is also bound by a positive atom. -/
def FreshTargets (r : Rule) : Prop :=
  ∀ target e, (target, e) ∈ r.assignments → target ∉ r.positiveVariables

instance (r : Rule) : Decidable r.FreshTargets :=
  decidable_of_iff (∀ te ∈ r.assignments, te.1 ∉ r.positiveVariables)
    ⟨fun h target e he => h (target, e) he, fun h te he => h te.1 te.2 he⟩

/-- What a valuation of the positive atoms leads to: negated atoms are absent, the test holds, and
`h` is the head once the assigned variable has its value. -/
def Concludes {p : Program} (r : Rule) (E : Evaluator) (D : Database p) (σ : Valuation)
    (h : Tuple) : Prop :=
  (∀ a ∈ r.negative, a.under σ ∉ D.rows a.predicate)
  ∧ (∀ e ∈ r.test?, E.holds (e.under σ))
  ∧ match r.assignment? with
    | none => h = r.head.under σ
    | some (target, e) => ∃ v, E.value (e.under σ) = some v
        ∧ h = r.head.under (Function.update σ target v)

section Concludes

variable {p : Program} {r : Rule} {E : Evaluator} {D : Database p} {h : Tuple}

theorem concludes_of_fires (hr : r.Safe) {σ : Valuation} (hσ : r.Fires E D σ) :
    r.Concludes E D σ (r.head.under σ) := by
  refine ⟨hσ.negative, ?_, ?_⟩
  · intro e he
    exact hσ.tests e ((test?_eq_some_iff hr.tests_le).1 he)
  · cases ha : r.assignment? with
    | none => rfl
    | some te =>
      obtain ⟨target, e⟩ := te
      have hmem := (assignment?_eq_some_iff hr.assignments_le).1 ha
      refine ⟨σ target, hσ.assignments target e hmem, ?_⟩
      rw [Function.update_eq_self]

/-- An assigned variable that no positive atom binds can be given its value afterwards: nothing in
the body but the assignment looks at it. -/
theorem fires_update (hr : r.Safe) (hflag : ∀ e ∈ r.body, e.Flagged) (hfresh : r.FreshTargets)
    {σ : Valuation} (hpos : ∀ a ∈ r.positive, a.under σ ∈ D.rows a.predicate)
    (hneg : ∀ a ∈ r.negative, a.under σ ∉ D.rows a.predicate)
    (htest : ∀ e ∈ r.test?, E.holds (e.under σ)) {target : String} {e : Expression} {v : Int64}
    (ha : r.assignment? = some (target, e)) (hv : E.value (e.under σ) = some v) :
    r.Fires E D (Function.update σ target v) := by
  have hmem := (assignment?_eq_some_iff hr.assignments_le).1 ha
  have hsame : ∀ x ∈ r.positiveVariables, Function.update σ target v x = σ x := by
    intro x hx
    refine Function.update_of_ne ?_ v σ
    rintro rfl
    exact hfresh x e hmem hx
  constructor
  · intro a hpa
    rw [Atom.under_congr fun x hx => hsame x (mem_positiveVariables.2 ⟨a, hpa, hx⟩)]
    exact hpos a hpa
  · intro a hna
    rw [Atom.under_congr fun x hx => hsame x (hr.negative_bound a hna x hx)]
    exact hneg a hna
  · intro f hf
    rw [Expression.under_congr (flagged_of_mem_tests hflag hf)
      fun x hx => hsame x (hr.test_bound f hf x hx)]
    exact htest f ((test?_eq_some_iff hr.tests_le).2 hf)
  · intro target' e' hmem'
    -- a safe rule has one assignment
    have heq := (assignment?_eq_some_iff hr.assignments_le).2 hmem'
    rw [ha] at heq
    obtain ⟨rfl, rfl⟩ := Prod.mk.inj (Option.some.inj heq)
    rw [Expression.under_congr (flagged_of_mem_assignments hflag hmem)
      fun x hx => hsame x (hr.assignment_bound target e hmem x hx), Function.update_self]
    exact hv

/-- A rule derives what the valuations of its positive atoms lead to. -/
theorem mem_derived_iff (hr : r.Safe) (hflag : ∀ e ∈ r.body, e.Flagged)
    (hfresh : r.FreshTargets) :
    h ∈ r.derived E D ↔
      ∃ σ, (∀ a ∈ r.positive, a.under σ ∈ D.rows a.predicate) ∧ r.Concludes E D σ h := by
  constructor
  · rintro ⟨σ, hσ, rfl⟩
    exact ⟨σ, hσ.positive, concludes_of_fires hr hσ⟩
  · rintro ⟨σ, hpos, hneg, htest, hhead⟩
    cases ha : r.assignment? with
    | none =>
      rw [ha] at hhead
      refine ⟨σ, ⟨hpos, hneg, ?_, ?_⟩, hhead⟩
      · intro e he
        exact htest e ((test?_eq_some_iff hr.tests_le).2 he)
      · intro target e he
        rw [← assignment?_eq_some_iff hr.assignments_le, ha] at he
        cases he
    | some te =>
      obtain ⟨target, e⟩ := te
      rw [ha] at hhead
      obtain ⟨v, hv, rfl⟩ := hhead
      exact ⟨Function.update σ target v,
        fires_update hr hflag hfresh hpos hneg htest ha hv, rfl⟩

end Concludes

end Rule

/-! ## Terms under a valuation -/

/-- The bindings agree with a valuation on the listed variables that a driving atom leaves free. -/
def Binding.Agrees (b : Binding) (σ : Valuation) (driving : Atom) (vars : List String) : Prop :=
  ∀ x ∈ vars, x ∉ driving.vars → b x = some (σ x)

namespace Equation

section Terms

variable {a : Atom} {σ : Valuation} {b : Binding}

/-- The fact that carries everything else: a rewritten argument has the value of the argument. -/
theorem value?_term {arg : Argument}
    (hb : ∀ x, arg = .var x → x ∉ a.vars → b x = some (σ x)) :
    ((Columns.ofArgs a.args).term arg).value? (a.under σ) b = some (arg.under σ) := by
  cases arg with
  | const v => rfl
  | var x =>
    cases hfind : (Columns.ofArgs a.args).find? x with
    | some i =>
      have harg := Columns.getElem?_of_find?_ofArgs hfind
      rw [Columns.term_var_of_find? hfind]
      show (a.args.map (Argument.under σ))[i]? = some (σ x)
      rw [List.getElem?_map, harg]
      rfl
    | none =>
      have hx : x ∉ a.vars := mt Atom.mem_vars.1 (Columns.find?_ofArgs_eq_none_iff.1 hfind)
      rw [Columns.term_var_of_find?_none hfind]
      exact hb x rfl hx

theorem read_map_term_iff {atom : Atom} (hb : b.Agrees σ a atom.vars) {u : Tuple} :
    Term.Read (a.under σ) b (atom.args.map (Columns.ofArgs a.args).term) u ↔ u = atom.under σ := by
  have hvalues : (atom.args.map (Columns.ofArgs a.args).term).map (Term.value? (a.under σ) b)
      = (atom.under σ).map some := by
    unfold Atom.under
    rw [List.map_map, List.map_map]
    refine List.map_congr_left ?_
    intro arg harg
    refine value?_term ?_
    rintro x rfl hx
    exact hb x (Atom.mem_vars.2 harg) hx
  unfold Term.Read
  rw [hvalues, List.map_inj_right fun _ _ => Option.some.inj]
  exact eq_comm

theorem read_operands_iff {e : Expression} (hflag : e.Flagged) (hb : b.Agrees σ a e.vars)
    {s : List Slot} :
    Operand.Read (a.under σ) b ((Columns.ofArgs a.args).operands e) s ↔ s = e.under σ := by
  have hvalues : ((Columns.ofArgs a.args).operands e).map (Operand.slot? (a.under σ) b)
      = (e.under σ).map some := by
    unfold Columns.operands Expression.under
    rw [List.map_map, List.map_map]
    refine List.map_congr_left ?_
    intro piece hpiece
    by_cases hvar : piece.isVariable = true
    · have hvalue : ((Columns.ofArgs a.args).term (.var piece.text)).value? (a.under σ) b
          = some (σ piece.text) := by
        refine value?_term ?_
        rintro x ⟨rfl⟩ hx
        exact hb _ (hflag piece hpiece hvar) hx
      simp [hvar, Operand.slot?, hvalue]
    · simp [hvar, Operand.slot?]
  unfold Operand.Read
  rw [hvalues, List.map_inj_right fun _ _ => Option.some.inj]
  exact eq_comm

end Terms

/-! ## The right side of an equation -/

section RightSide

variable {p : Program} {r : Rule} {E : Evaluator} {D : Database p} {a : Atom} {σ : Valuation}
  {b : Binding} {h : Tuple} {number : Nat} {consulting : Option Consultation}

theorem negated_iff (hr : r.Safe) (hb : b.Agrees σ a r.positiveVariables) :
    (∀ n ∈ (ofRule r number a consulting).negated,
        ∃ u, Term.Read (a.under σ) b n.args u ∧ u ∉ D.rows n.predicate) ↔
      ∀ n ∈ r.negative, n.under σ ∉ D.rows n.predicate := by
  simp only [ofRule, List.forall_mem_map]
  refine forall₂_congr fun n hn => ?_
  have hread : ∀ u, Term.Read (a.under σ) b (n.args.map (Columns.ofArgs a.args).term) u ↔
      u = n.under σ := by
    intro u
    exact read_map_term_iff fun x hx => hb x (hr.negative_bound n hn x hx)
  simp only [hread, exists_eq_left]

theorem condition_iff (hr : r.Safe) (hflag : ∀ e ∈ r.body, e.Flagged)
    (hb : b.Agrees σ a r.positiveVariables) :
    (∀ c ∈ (ofRule r number a consulting).condition,
        ∃ s, Operand.Read (a.under σ) b c s ∧ E.holds s) ↔
      ∀ e ∈ r.test?, E.holds (e.under σ) := by
  cases ht : r.test? with
  | none => simp [ofRule, ht]
  | some e =>
    have hmem := (Rule.test?_eq_some_iff hr.tests_le).1 ht
    have hread : ∀ s, Operand.Read (a.under σ) b ((Columns.ofArgs a.args).operands e) s ↔
        s = e.under σ := by
      intro s
      exact read_operands_iff (Rule.flagged_of_mem_tests hflag hmem)
        fun x hx => hb x (hr.test_bound e hmem x hx)
    simp [ofRule, ht, hread]

/-- Without an assignment the head has positive variables only. -/
theorem read_headArgs_iff (hr : r.Safe) (hb : b.Agrees σ a r.positiveVariables)
    (ha : r.assignment? = none) :
    Term.Read (a.under σ) b (ofRule r number a consulting).headArgs h ↔ h = r.head.under σ := by
  refine read_map_term_iff ?_
  intro x hx
  rcases hr.head_bound x hx with hpos | ⟨e, he⟩
  · exact hb x hpos
  · rw [← Rule.assignment?_eq_some_iff hr.assignments_le, ha] at he
    cases he

/-- With an assignment the head has positive variables and the assigned one, and the driving tuple
does not depend on the latter. -/
theorem read_headArgs_set_iff (hr : r.Safe) (hfresh : r.FreshTargets) (hdriving : a ∈ r.positive)
    (hb : b.Agrees σ a r.positiveVariables) {target : String} {e : Expression} {v : Int64}
    (ha : r.assignment? = some (target, e)) :
    Term.Read (a.under σ) (b.set target v) (ofRule r number a consulting).headArgs h ↔
      h = r.head.under (Function.update σ target v) := by
  have hmem := (Rule.assignment?_eq_some_iff hr.assignments_le).1 ha
  have hne : ∀ x ∈ r.positiveVariables, x ≠ target := by
    rintro x hx rfl
    exact hfresh x e hmem hx
  have hsame : a.under σ = a.under (Function.update σ target v) := by
    refine Atom.under_congr fun x hx => ?_
    have hpos := Rule.mem_positiveVariables.2 ⟨a, hdriving, hx⟩
    rw [Function.update_of_ne (hne x hpos)]
  rw [hsame]
  refine read_map_term_iff ?_
  intro x hx hfree
  unfold Binding.set
  rcases hr.head_bound x hx with hpos | ⟨e', he'⟩
  · rw [if_neg (hne x hpos), Function.update_of_ne (hne x hpos)]
    exact hb x hpos hfree
  · have heq := (Rule.assignment?_eq_some_iff hr.assignments_le).2 he'
    rw [ha] at heq
    obtain ⟨rfl, -⟩ := Prod.mk.inj (Option.some.inj heq)
    rw [if_pos rfl, Function.update_self]

/-- At an instance of the driving atom, with the other positive variables bound as the valuation has
them, an equation yields what the rule concludes. -/
theorem yields_iff_concludes (hr : r.Safe) (hflag : ∀ e ∈ r.body, e.Flagged)
    (hfresh : r.FreshTargets) (hdriving : a ∈ r.positive)
    (hb : b.Agrees σ a r.positiveVariables) :
    (ofRule r number a consulting).Yields E D (a.under σ) b h ↔ r.Concludes E D σ h := by
  have hsplit : (ofRule r number a consulting).Yields E D (a.under σ) b h ↔ _ ∧ _ ∧ _ :=
    ⟨fun y => ⟨y.negated, y.condition, y.head⟩, fun y => ⟨y.1, y.2.1, y.2.2⟩⟩
  rw [hsplit, negated_iff hr hb, condition_iff hr hflag hb]
  unfold Rule.Concludes
  refine and_congr_right fun _ => and_congr_right fun _ => ?_
  cases ha : r.assignment? with
  | none =>
    have hnone : (ofRule r number a consulting).assignment = none := by simp [ofRule, ha]
    rw [hnone]
    exact read_headArgs_iff hr hb ha
  | some te =>
    obtain ⟨target, e⟩ := te
    have hsome : (ofRule r number a consulting).assignment
        = some (target, (Columns.ofArgs a.args).operands e) := by simp [ofRule, ha]
    have hmem := (Rule.assignment?_eq_some_iff hr.assignments_le).1 ha
    have hread : ∀ s, Operand.Read (a.under σ) b ((Columns.ofArgs a.args).operands e) s ↔
        s = e.under σ := by
      intro s
      exact read_operands_iff (Rule.flagged_of_mem_assignments hflag hmem)
        fun x hx => hb x (hr.assignment_bound target e hmem x hx)
    rw [hsome]
    simp only [hread, read_headArgs_set_iff hr hfresh hdriving hb ha]
    constructor
    · rintro ⟨_, v, rfl, hv, hhead⟩
      exact ⟨v, hv, hhead⟩
    · rintro ⟨v, hv, hhead⟩
      exact ⟨_, v, rfl, hv, hhead⟩

end RightSide

/-! ## Driving tuples -/

section Driving

variable {r : Rule} {a : Atom} {number : Nat} {consulting : Option Consultation}

theorem selects_under (σ : Valuation) : (ofRule r number a consulting).Selects (a.under σ) := by
  intro s hs
  unfold Term.StandsAt Atom.under
  rcases Columns.selection_cases hs with ⟨v, harg, hequals⟩ | ⟨x, first, harg, hfirst, hequals⟩
  · refine ⟨v, by rw [hequals]; rfl, ?_⟩
    rw [List.getElem?_map, harg]
    rfl
  · refine ⟨σ x, ?_, ?_⟩
    · rw [hequals]
      show (a.args.map (Argument.under σ))[first]? = _
      rw [List.getElem?_map, hfirst]
      rfl
    · rw [List.getElem?_map, harg]
      rfl

/-- The valuation that a driving tuple and the bound variables stand for. -/
def valuation (args : List Argument) (t : Tuple) (b : Binding) : Valuation := fun x =>
  (((Columns.ofArgs args).term (.var x)).value? t b).getD 0

theorem valuation_of_find? {args : List Argument} {x : String} {i : Nat}
    (h : args.idxOf? (.var x) = some i) (t : Tuple) (b : Binding) :
    valuation args t b x = t[i]?.getD 0 := by
  rw [← Columns.find?_ofArgs] at h
  unfold valuation
  rw [Columns.term_var_of_find? h]
  rfl

/-- A tuple of the right length that passes the selections is an instance of the driving atom. -/
theorem under_valuation {t : Tuple} (b : Binding) (hlen : t.length = a.arity)
    (hsel : (ofRule r number a consulting).Selects t) : a.under (valuation a.args t b) = t := by
  unfold Atom.under
  refine List.ext_getElem? ?_
  intro i
  rw [List.getElem?_map]
  cases harg : a.args[i]? with
  | none =>
    rw [List.getElem?_eq_none_iff] at harg
    rw [Option.map_none, List.getElem?_eq_none (by unfold Atom.arity at hlen; omega)]
  | some arg =>
    have hi : i < t.length := by
      obtain ⟨hi, -⟩ := List.getElem?_eq_some_iff.1 harg
      unfold Atom.arity at hlen
      omega
    cases arg with
    | const v =>
      obtain ⟨w, hw, hti⟩ := hsel _ (Columns.mem_selections_of_const harg)
      obtain rfl : v = w := Option.some.inj hw
      exact hti.symm
    | var x =>
      have hmem : Argument.var x ∈ a.args := List.mem_of_getElem? harg
      obtain ⟨first, hfirst⟩ := Option.ne_none_iff_exists'.1
        (mt List.idxOf?_eq_none_iff.1 (not_not.2 hmem))
      show some (valuation a.args t b x) = t[i]?
      rw [valuation_of_find? hfirst]
      -- the first place of a variable is not selected, later places equal it
      rcases Nat.lt_trichotomy first i with hlt | rfl | hgt
      · obtain ⟨w, hw, hti⟩ := hsel _ (Columns.mem_selections_of_repeated harg hfirst hlt)
        have hw' : t[first]? = some w := hw
        rw [hw', hti, Option.getD_some]
      · rw [List.getElem?_eq_getElem hi, Option.getD_some]
      · obtain ⟨hlt, -, hbefore⟩ := List.idxOf?_eq_some_iff.1 hfirst
        exact absurd (List.getElem?_eq_some_iff.1 harg).2 (by simpa using hbefore i hgt)

end Driving

end Equation

/-! ## Consulted tuples -/

theorem Term.value?_of_not_free {term : Term} (h : term.isFree = false) (t : Tuple)
    (b b' : Binding) : term.value? t b = term.value? t b' := by
  match term with
  | .column (.ofNat _) => rfl
  | .column (.negSucc _) => rfl
  | .argument (.const _) => rfl
  | .argument (.var _) => simp [Term.isFree] at h

namespace Consultation

/-- The consultation looks up an atom from the tuples of a driving atom. -/
structure Consults (c : Consultation) (driving atom : Atom) : Prop where
  predicate : c.predicate = atom.predicate
  arrangement : Arrangement.mk c.view c.combination c.bound
    = .ofTerms (atom.args.map (Equation.Columns.ofArgs driving.args).term)

section Lookup

variable {c : Consultation} {a atom : Atom} {t u : Tuple}

theorem mem_fixedColumns_iff (hc : c.Consults a atom) {term : Term} {i : Nat} :
    (term, i) ∈ c.fixedColumns ↔
      (∃ arg, atom.args[i]? = some arg ∧ (Equation.Columns.ofArgs a.args).term arg = term)
        ∧ term.isFree = false := by
  have h := Arrangement.mem_take_bound_iff
    (atom.args.map (Equation.Columns.ofArgs a.args).term) (term, i)
  rw [← hc.arrangement, List.getElem?_map, Option.map_eq_some_iff] at h
  exact h

theorem mem_freeColumns_iff (hc : c.Consults a atom) {term : Term} {i : Nat} :
    (term, i) ∈ c.freeColumns ↔
      (∃ arg, atom.args[i]? = some arg ∧ (Equation.Columns.ofArgs a.args).term arg = term)
        ∧ term.isFree = true := by
  have h := Arrangement.mem_drop_bound_iff
    (atom.args.map (Equation.Columns.ofArgs a.args).term) (term, i)
  rw [← hc.arrangement, List.getElem?_map, Option.map_eq_some_iff] at h
  exact h

/-- What a lookup finds has the value of every argument at its declared place. -/
theorem Finds.standsAt (hc : c.Consults a atom) (hf : c.Finds t u) {i : Nat} {arg : Argument}
    (harg : atom.args[i]? = some arg) :
    ((Equation.Columns.ofArgs a.args).term arg).StandsAt t (c.binding u) u i := by
  cases hfree : ((Equation.Columns.ofArgs a.args).term arg).isFree with
  | true => exact hf.free _ ((mem_freeColumns_iff hc).2 ⟨⟨arg, harg, rfl⟩, hfree⟩)
  | false =>
    obtain ⟨v, hv, hu⟩ := hf.fixed _ ((mem_fixedColumns_iff hc).2 ⟨⟨arg, harg, rfl⟩, hfree⟩)
    exact ⟨v, by rw [Term.value?_of_not_free hfree t _ .empty]; exact hv, hu⟩

/-- An instance of the consulted atom binds its free variables as the valuation has them. -/
theorem binding_under (hc : c.Consults a atom) (σ : Valuation) :
    (c.binding (atom.under σ)).Agrees σ a atom.vars := by
  intro x hx hfree
  have hnone : (Equation.Columns.ofArgs a.args).find? x = none :=
    Equation.Columns.find?_ofArgs_eq_none_iff.2 (mt Atom.mem_vars.2 hfree)
  -- some free column holds the variable, so the search succeeds
  obtain ⟨i, harg⟩ := List.getElem?_of_mem (Atom.mem_vars.1 hx)
  have hcolumn : (Term.argument (.var x), i) ∈ c.freeColumns :=
    (mem_freeColumns_iff hc).2
      ⟨⟨.var x, harg, Equation.Columns.term_var_of_find?_none hnone⟩, rfl⟩
  have hsome : (c.freeColumns.find? (·.1 == .argument (.var x))).isSome := by
    rw [List.find?_isSome]
    exact ⟨_, hcolumn, by simp⟩
  obtain ⟨⟨term, j⟩, hfind⟩ := Option.isSome_iff_exists.1 hsome
  obtain rfl : term = .argument (.var x) := by simpa using List.find?_some hfind
  obtain ⟨⟨arg, hj, hterm⟩, -⟩ := (mem_freeColumns_iff hc).1 (List.mem_of_find?_eq_some hfind)
  obtain ⟨rfl, -⟩ := Equation.Columns.term_eq_var_iff.1 hterm
  unfold binding
  rw [hfind, Option.bind_some]
  show (atom.args.map (Argument.under σ))[j]? = some (σ x)
  rw [List.getElem?_map, hj]
  rfl

/-- Every instance of the consulted atom under the valuation of the driving tuple is found. -/
theorem finds_under (hc : c.Consults a atom) (σ : Valuation) :
    c.Finds (a.under σ) (atom.under σ) := by
  have hbind := binding_under hc σ
  have hstands : ∀ {i : Nat} {arg : Argument}, atom.args[i]? = some arg →
      ((Equation.Columns.ofArgs a.args).term arg).StandsAt (a.under σ)
        (c.binding (atom.under σ)) (atom.under σ) i := by
    intro i arg harg
    refine ⟨arg.under σ, ?_, ?_⟩
    · refine Equation.value?_term ?_
      rintro x rfl hx
      exact hbind x (Atom.mem_vars.2 (List.mem_of_getElem? harg)) hx
    · show (atom.args.map (Argument.under σ))[i]? = _
      rw [List.getElem?_map, harg]
      rfl
  constructor
  · rintro ⟨term, i⟩ hcolumn
    obtain ⟨⟨arg, harg, rfl⟩, hfree⟩ := (mem_fixedColumns_iff hc).1 hcolumn
    obtain ⟨v, hv, hu⟩ := hstands harg
    exact ⟨v, by rw [Term.value?_of_not_free hfree _ _ (c.binding (atom.under σ))]; exact hv, hu⟩
  · rintro ⟨term, i⟩ hcolumn
    obtain ⟨⟨arg, harg, rfl⟩, -⟩ := (mem_freeColumns_iff hc).1 hcolumn
    exact hstands harg

/-- A tuple of the right length that a lookup finds is the instance of the consulted atom under the
valuation that driving tuple and lookup stand for. -/
theorem under_valuation_of_finds (hc : c.Consults a atom) (hf : c.Finds t u)
    (hlen : u.length = atom.arity) :
    atom.under (Equation.valuation a.args t (c.binding u)) = u := by
  unfold Atom.under
  refine List.ext_getElem? ?_
  intro i
  rw [List.getElem?_map]
  cases harg : atom.args[i]? with
  | none =>
    rw [List.getElem?_eq_none_iff] at harg
    rw [Option.map_none, List.getElem?_eq_none (by unfold Atom.arity at hlen; omega)]
  | some arg =>
    obtain ⟨v, hv, hu⟩ := hf.standsAt hc harg
    rw [hu, Option.map_some]
    cases arg with
    | const w => exact hv
    | var x =>
      show some ((((Equation.Columns.ofArgs a.args).term (.var x)).value? t (c.binding u)).getD 0)
        = some v
      rw [hv, Option.getD_some]

end Lookup

end Consultation

/-! ## Whole equations -/

namespace Equation

section Derived

variable {p : Program} {r : Rule} {E : Evaluator} {D : Database p} {a atom : Atom} {h : Tuple}
  {number : Nat} {c : Consultation} {driving : Set Tuple}

/-- An equation without a lookup derives what the instances of its one positive atom lead to. -/
theorem mem_derivedFrom_unary_iff (hr : r.Safe) (hflag : ∀ e ∈ r.body, e.Flagged)
    (hfresh : r.FreshTargets) (hpos : ∀ b, b ∈ r.positive ↔ b = a)
    (hlen : ∀ t ∈ driving, t.length = a.arity) :
    h ∈ (ofRule r number a none).derivedFrom E driving D ↔
      ∃ σ, a.under σ ∈ driving ∧ r.Concludes E D σ h := by
  have hdriving : a ∈ r.positive := (hpos a).2 rfl
  have hb : ∀ σ, Binding.empty.Agrees σ a r.positiveVariables := by
    intro σ x hx hfree
    obtain ⟨b, hb, hxb⟩ := Rule.mem_positiveVariables.1 hx
    rw [(hpos b).1 hb] at hxb
    exact absurd hxb hfree
  constructor
  · rintro ⟨t, ht, hsel, hyields⟩
    have hunder := under_valuation .empty (hlen t ht) hsel
    rw [← hunder] at ht hyields
    exact ⟨_, ht, (yields_iff_concludes hr hflag hfresh hdriving (hb _)).1 hyields⟩
  · rintro ⟨σ, hσ, hconcludes⟩
    exact ⟨a.under σ, hσ, selects_under σ,
      (yields_iff_concludes hr hflag hfresh hdriving (hb σ)).2 hconcludes⟩

/-- An equation with a lookup derives what the common instances of its two positive atoms lead to,
whichever of them drives. -/
theorem mem_derivedFrom_binary_iff (hr : r.Safe) (hflag : ∀ e ∈ r.body, e.Flagged)
    (hfresh : r.FreshTargets) (hpos : ∀ b, b ∈ r.positive ↔ b = a ∨ b = atom)
    (hc : c.Consults a atom) (hlen : ∀ t ∈ driving, t.length = a.arity)
    (hlen' : ∀ u ∈ D.rows atom.predicate, u.length = atom.arity) :
    h ∈ (ofRule r number a (some c)).derivedFrom E driving D ↔
      ∃ σ, a.under σ ∈ driving ∧ atom.under σ ∈ D.rows atom.predicate ∧ r.Concludes E D σ h := by
  have hdriving : a ∈ r.positive := (hpos a).2 (Or.inl rfl)
  have hb : ∀ σ, (c.binding (atom.under σ)).Agrees σ a r.positiveVariables := by
    intro σ x hx hfree
    obtain ⟨b, hb, hxb⟩ := Rule.mem_positiveVariables.1 hx
    rcases (hpos b).1 hb with rfl | rfl
    · exact absurd hxb hfree
    · exact Consultation.binding_under hc σ x hxb hfree
  constructor
  · rintro ⟨t, ht, hsel, u, hu, hfinds, hyields⟩
    rw [hc.predicate] at hu
    have ht' := under_valuation (c.binding u) (hlen t ht) hsel
    have hu' := Consultation.under_valuation_of_finds hc hfinds (hlen' u hu)
    generalize valuation a.args t (c.binding u) = σ at ht' hu'
    subst ht' hu'
    exact ⟨σ, ht, hu, (yields_iff_concludes hr hflag hfresh hdriving (hb σ)).1 hyields⟩
  · rintro ⟨σ, hσ, hu, hconcludes⟩
    refine ⟨a.under σ, hσ, selects_under σ, atom.under σ, ?_, Consultation.finds_under hc σ,
      (yields_iff_concludes hr hflag hfresh hdriving (hb σ)).2 hconcludes⟩
    rw [hc.predicate]
    exact hu

end Derived

end Equation

end RulePlan
