import RulePlan.Proofs.CanonicalViews
import RulePlan.Proofs.PlannedRules

/-!
# RulePlan.Proofs.KeptPredicates — why a predicate is kept

The reasons to keep a predicate are found on equations, whose columns are already arranged, stratum
after stratum. They say something about the rules of the source all the same. A rule that joins two
atoms has an equation for each role, so what is asked of the driving atom, or of the consulted one,
is asked of both. A driving atom has a variable at two places if its variables are fewer than their
places. A consulted atom is fixed before the lookup if no free variable is left behind the bound,
and a variable is free if the driving atom does not have it.

Requirements are then sorted by predicate, and each predicate keeps its reasons without repetition,
so the order in which they were found is lost.
-/

namespace RulePlan

/-! ## Atoms of a join -/

namespace Atom

/-- Some variable stands at two places. -/
def Repeats (a : Atom) : Prop :=
  ∃ (x : String) (i j : Nat), i < j ∧ a.args[i]? = some (.var x) ∧ a.args[j]? = some (.var x)

/-- Every argument is a constant, or a variable that the other atom has too. -/
def FixedBy (a b : Atom) : Prop :=
  ∀ arg ∈ a.args, (∃ v, arg = .const v) ∨ ∃ x, arg = .var x ∧ .var x ∈ b.args

theorem nodup_variablePlaces_iff {a : Atom} : a.variablePlaces.Nodup ↔ ¬a.Repeats := by
  unfold variablePlaces Repeats
  rw [List.Nodup, List.pairwise_filterMap, List.pairwise_iff_getElem]
  constructor
  · rintro h ⟨x, i, j, hij, hi, hj⟩
    obtain ⟨hilt, hi⟩ := List.getElem?_eq_some_iff.1 hi
    obtain ⟨hjlt, hj⟩ := List.getElem?_eq_some_iff.1 hj
    exact h i j hilt hjlt hij x (by rw [hi]; rfl) x (by rw [hj]; rfl) rfl
  · rintro h i j hilt hjlt hij x hx y hy rfl
    have hvar : ∀ arg : Argument, arg.name? = some x → arg = .var x := by
      rintro (y | v) harg
      · exact congrArg Argument.var (Option.some.inj harg)
      · cases harg
    exact h ⟨x, i, j, hij, List.getElem?_eq_some_iff.2 ⟨hilt, hvar _ hx⟩,
      List.getElem?_eq_some_iff.2 ⟨hjlt, hvar _ hy⟩⟩

theorem repeatsVariable_iff {a : Atom} : a.repeatsVariable = true ↔ a.Repeats := by
  have hvars : a.vars.length = a.variablePlaces.toFinset.card :=
    Names.length_ofList a.variablePlaces
  unfold repeatsVariable
  rw [decide_eq_true_eq, hvars, ← not_iff_not, ← nodup_variablePlaces_iff,
    (List.toFinset_card_le _).not_lt_iff_eq]
  exact Multiset.toFinset_card_eq_card_iff_nodup (m := (a.variablePlaces : Multiset String))

end Atom

/-- All terms stand before the bound iff none of them is free. -/
theorem Arrangement.bound_eq_length_iff (terms : List Term) :
    (ofTerms terms).bound = (ofTerms terms).terms.length ↔ ∀ t ∈ terms, t.isFree = false := by
  have hlength : (ofTerms terms).terms.length
      = (ofTerms terms).bound + (terms.filter Term.isFree).length := by
    rw [terms_ofTerms, bound_eq]
    exact List.length_append
  rw [hlength, Nat.left_eq_add, List.length_eq_zero_iff, List.filter_eq_nil_iff]
  simp only [Bool.not_eq_true]

/-- A consulted atom is fixed by the driving one iff its view is bound throughout. -/
theorem Atom.fixedBy_iff {a b : Atom} :
    b.FixedBy a ↔
      ∀ t ∈ b.args.map (Equation.Columns.ofArgs a.args).term, t.isFree = false := by
  simp only [FixedBy, List.forall_mem_map]
  refine forall₂_congr fun arg _ => ?_
  cases arg with
  | const v => exact iff_of_true (.inl ⟨v, rfl⟩) rfl
  | var x =>
    cases hfind : (Equation.Columns.ofArgs a.args).find? x with
    | none =>
      have hnot := Equation.Columns.find?_ofArgs_eq_none_iff.1 hfind
      rw [Equation.Columns.term_var_of_find?_none hfind]
      refine iff_of_false ?_ nofun
      rintro (⟨v, hconst⟩ | ⟨y, hy, hmem⟩)
      · cases hconst
      · cases hy
        exact hnot hmem
    | some i =>
      have hmem := List.mem_of_getElem? (Equation.Columns.getElem?_of_find?_ofArgs hfind)
      rw [Equation.Columns.term_var_of_find? hfind]
      exact iff_of_true (.inr ⟨x, rfl, hmem⟩) rfl

/-- What an equation requires, in terms of the atom that drives and the one that is consulted. -/
theorem Atom.mem_footprint_iff {a b : Atom} {x : String} {reason : Reason} :
    (x, reason) ∈ (a.footprint b).1 ↔
      (reason = .equalCard ∧ x = a.predicate ∧ a.Repeats)
        ∨ reason = .membership ∧ x = b.predicate ∧ b.FixedBy a := by
  have hif : ∀ {c : Prop} [Decidable c] {q : String × Reason},
      (x, reason) ∈ (if c then [q] else []) ↔ (x, reason) = q ∧ c := by
    intro c _ q
    by_cases hc : c <;> simp [hc]
  unfold footprint
  rw [List.mem_append, hif, hif, repeatsVariable_iff, beq_iff_eq, Arrangement.bound_eq_length_iff,
    ← fixedBy_iff, Prod.mk.injEq, Prod.mk.injEq]
  tauto

/-! ## Rules -/

/-- A rule has two positive atoms, in either order. -/
def Rule.Joins (r : Rule) (a b : Atom) : Prop := r.positive = [a, b] ∨ r.positive = [b, a]

theorem Rule.mem_footprints_iff {r : Rule} {x : String} {reason : Reason} :
    (∃ f ∈ r.footprints, (x, reason) ∈ f.1) ↔
      ∃ a b, r.Joins a b ∧ x = a.predicate
        ∧ (reason = .equalCard ∧ a.Repeats ∨ reason = .membership ∧ a.FixedBy b) := by
  unfold footprints Joins
  split
  next a hpos => simp [hpos]
  next a b hpos =>
    simp only [hpos, List.mem_cons, List.not_mem_nil, or_false, exists_eq_or_imp, exists_eq_left,
      Atom.mem_footprint_iff, List.cons.injEq, and_true]
    constructor
    · rintro ((⟨hr, hx, h⟩ | ⟨hr, hx, h⟩) | ⟨hr, hx, h⟩ | ⟨hr, hx, h⟩)
      · exact ⟨a, b, .inl ⟨rfl, rfl⟩, hx, .inl ⟨hr, h⟩⟩
      · exact ⟨b, a, .inr ⟨rfl, rfl⟩, hx, .inr ⟨hr, h⟩⟩
      · exact ⟨b, a, .inr ⟨rfl, rfl⟩, hx, .inl ⟨hr, h⟩⟩
      · exact ⟨a, b, .inl ⟨rfl, rfl⟩, hx, .inr ⟨hr, h⟩⟩
    · rintro ⟨c, d, ⟨rfl, rfl⟩ | ⟨rfl, rfl⟩, hx, ⟨hr, h⟩ | ⟨hr, h⟩⟩
      · exact .inl (.inl ⟨hr, hx, h⟩)
      · exact .inr (.inr ⟨hr, hx, h⟩)
      · exact .inr (.inl ⟨hr, hx, h⟩)
      · exact .inl (.inr ⟨hr, hx, h⟩)
  next hone htwo =>
    refine iff_of_false (by simp) ?_
    rintro ⟨a, b, hpos | hpos, -⟩
    · exact htwo _ _ hpos
    · exact htwo _ _ hpos

/-! ## Solutions -/

/-- When a reason applies to a predicate, by the requested outputs and the rules of a source. A
blank among the outputs requests nothing. -/
inductive Reason.Applies (outputs : List String) (rules : List Rule) : Reason → String → Prop
  | output {x : String} (hx : x ∈ outputs) (hne : x ≠ "") : Applies outputs rules .output x
  | equalCard {r : Rule} {a b : Atom} (hr : r ∈ rules) (hjoins : r.Joins a b)
      (hrepeats : a.Repeats) : Applies outputs rules .equalCard a.predicate
  | membership {r : Rule} {a b : Atom} (hr : r ∈ rules) (hjoins : r.Joins a b)
      (hfixed : a.FixedBy b) : Applies outputs rules .membership a.predicate
  | negated {r : Rule} {a : Atom} (hr : r ∈ rules) (ha : a ∈ r.negative) :
      Applies outputs rules .negated a.predicate

namespace Solution

/-- A list of predicates with reasons is the one that outputs and rules call for: it has exactly the
predicates that some reason applies to, in order of name and each once, and with each of them
exactly the reasons that apply, each once. -/
structure Explains (outputs : List String) (rules : List Rule)
    (solution : List (String × List Reason)) : Prop where
  predicates : ∀ x, x ∈ solution.map Prod.fst ↔ ∃ reason : Reason, reason.Applies outputs rules x
  sorted : (solution.map Prod.fst).Pairwise (· < ·)
  reasons : ∀ x found, (x, found) ∈ solution →
    ∀ reason : Reason, reason ∈ found ↔ reason.Applies outputs rules x
  distinct : ∀ x found, (x, found) ∈ solution → found.Nodup

/-- What a list of requirements explains depends on nothing but its members. -/
theorem explains_ofRequirements {outputs : List String} {rules : List Rule}
    {required : List (String × Reason)}
    (h : ∀ x reason, (x, reason) ∈ required ↔ Reason.Applies outputs rules reason x) :
    Explains outputs rules (ofRequirements required) := by
  have hnames : (ofRequirements required).map Prod.fst
      = Names.sorted (Names.ofList (required.map Prod.fst)) := by
    unfold ofRequirements
    rw [List.map_map]
    exact List.map_id _
  have hentry : ∀ {x : String} {found : List Reason}, (x, found) ∈ ofRequirements required →
      found = ((required.filter (·.1 == x)).map Prod.snd).eraseDups := by
    intro x found hmem
    obtain ⟨name, -, heq⟩ := List.mem_map.1 hmem
    obtain ⟨rfl, rfl⟩ := Prod.mk.inj heq
    rfl
  refine
    { predicates := ?_
      sorted := ?_
      reasons := ?_
      distinct := ?_ }
  · intro x
    rw [hnames, Names.mem_sorted, Names.mem_ofList, List.mem_map, Prod.exists]
    simp only [exists_and_right, exists_eq_right, h]
  · rw [hnames]
    exact Names.pairwise_lt_sorted (Names.nodup_ofList _)
  · intro x found hmem reason
    rw [hentry hmem, List.mem_eraseDups, List.mem_map, ← h]
    simp only [List.mem_filter, beq_iff_eq, Prod.exists, exists_eq_right]
  · intro x found hmem
    rw [hentry hmem]
    exact Layering.nodup_eraseDups _

end Solution

/-! ## Plans -/

namespace Plan

/-- **The predicates to keep are those that the source calls for.** They are the requested outputs;
the predicates of atoms, in rules that join two, that have a variable at two places; those of atoms
in such rules whose arguments are constants and variables of the other atom; and the negated ones.
Every predicate is listed once, in order of name, with exactly the reasons that apply to it. -/
theorem explains_of_compile {request : Request} {plan : Plan}
    (h : (compile request).result = .ok plan) :
    Solution.Explains request.outputs (SourceLine.rules (SourceLine.ofSource request.source))
      plan.solution := by
  have hsource := source_of_compile h
  have hrules : ∀ r, r ∈ plan.rules ↔ r ∈ plan.program.rules :=
    fun r => (rules_perm_of_compile h).mem_iff
  rw [requirements_of_compile h, ← Program.rules_of_ofSource hsource]
  refine Solution.explains_ofRequirements fun x reason => ?_
  -- outputs, equations and negation require one part each
  have houtput : (x, reason) ∈ (Solution.outputs request.outputs).map (·, Reason.output)
      ↔ reason = .output ∧ x ∈ request.outputs ∧ x ≠ "" := by
    rw [List.mem_map, ← Solution.mem_outputs_iff]
    constructor
    · rintro ⟨name, hname, ⟨⟩⟩
      exact ⟨rfl, hname⟩
    · rintro ⟨rfl, hname⟩
      exact ⟨x, hname, rfl⟩
  have hnegated : (x, reason) ∈ plan.program.negated.map (·, Reason.negated)
      ↔ reason = .negated ∧ ∃ r ∈ plan.program.rules, ∃ a ∈ r.negative, a.predicate = x := by
    rw [List.mem_map, ← Program.mem_negated_iff hsource]
    constructor
    · rintro ⟨name, hname, ⟨⟩⟩
      exact ⟨rfl, hname⟩
    · rintro ⟨rfl, hname⟩
      exact ⟨x, hname, rfl⟩
  have hjoined : (x, reason) ∈ (plan.rules.flatMap Rule.footprints).flatMap Prod.fst
      ↔ ∃ r ∈ plan.program.rules, ∃ a b, r.Joins a b ∧ x = a.predicate
        ∧ (reason = .equalCard ∧ a.Repeats ∨ reason = .membership ∧ a.FixedBy b) := by
    simp only [← Rule.mem_footprints_iff, List.mem_flatMap, hrules]
    exact ⟨fun ⟨f, ⟨r, hr, hf⟩, hx⟩ => ⟨r, hr, f, hf, hx⟩,
      fun ⟨r, hr, f, hf, hx⟩ => ⟨f, ⟨r, hr, hf⟩, hx⟩⟩
  rw [List.mem_append, List.mem_append, houtput, hnegated, hjoined]
  constructor
  · rintro ((⟨rfl, hx, hne⟩ | ⟨r, hr, a, b, hjoins, rfl, hatom⟩) | ⟨rfl, r, hr, a, ha, rfl⟩)
    · exact .output hx hne
    · rcases hatom with ⟨rfl, hrepeats⟩ | ⟨rfl, hfixed⟩
      · exact .equalCard hr hjoins hrepeats
      · exact .membership hr hjoins hfixed
    · exact .negated hr ha
  · intro happlies
    cases happlies with
    | output hx hne => exact .inl (.inl ⟨rfl, hx, hne⟩)
    | equalCard hr hjoins hrepeats =>
      exact .inl (.inr ⟨_, hr, _, _, hjoins, rfl, .inl ⟨rfl, hrepeats⟩⟩)
    | membership hr hjoins hfixed =>
      exact .inl (.inr ⟨_, hr, _, _, hjoins, rfl, .inr ⟨rfl, hfixed⟩⟩)
    | negated hr ha => exact .inr ⟨rfl, _, hr, _, ha, rfl⟩

/-- Marked loops, and the nodes without one: every reason applies to some predicate. -/
def loopsRequest : Request where
  file := "loops.dl"
  source := "loop(X) :- edge(X, X), mark(X).\nfree(X) :- node(X), not loop(X)."
  outputs := ["free"]
  mode := .failFast

theorem explains_of_compile_loops : ∃ plan, (compile loopsRequest).result = .ok plan
    ∧ Solution.Explains loopsRequest.outputs
      (SourceLine.rules (SourceLine.ofSource loopsRequest.source)) plan.solution := by
  obtain ⟨plan, hplan⟩ := compile_isOk_of_negatesLast (r := loopsRequest) (by decide +kernel)
  exact ⟨plan, hplan, explains_of_compile hplan⟩

end Plan

end RulePlan
