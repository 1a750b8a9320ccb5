import RulePlan.Proofs.CompiledPlan
import RulePlan.Proofs.NegativeCycles

/-!
# RulePlan.Proofs.Increment — new facts come from new tuples

When a database grows while the negated predicates stay as they are, a rule derives a new fact only
by a valuation that puts one of its positive atoms among the new tuples. That atom drives an
equation of the plan, which reads the other atom in the grown database and so does not miss the case
in which both are new. One application of the rules to the grown database thus gives what it gave
before, together with what the equations derive from the new tuples alone.
-/

namespace RulePlan

/-- The facts that one application of the rules of a program derives: predicates with tuples. -/
def Program.consequences (p : Program) (E : Evaluator) (D : Database p) : Set (String × Tuple) :=
  {f | ∃ r ∈ p.rules, f.1 = r.head.predicate ∧ f.2 ∈ r.derived E D}

/-- The facts that the equations of a plan derive if each is driven only by the tuples of its
driving predicate that `D'` has and `D` has not, everything else being read in `D'`. -/
def Plan.increment (plan : Plan) (E : Evaluator) (D D' : Database plan.program) :
    Set (String × Tuple) :=
  {f | ∃ e ∈ plan.equations, f.1 = e.head
    ∧ f.2 ∈ e.derivedFrom E (D'.rows e.driving \ D.rows e.driving) D'}

namespace Rule

variable {p : Program} {r : Rule} {E : Evaluator} {D D' : Database p}

/-- What a valuation leads to depends on the database only at the negated predicates. -/
theorem concludes_congr (hnegated : ∀ a ∈ r.negative, D.rows a.predicate = D'.rows a.predicate)
    (σ : Valuation) (h : Tuple) : r.Concludes E D σ h ↔ r.Concludes E D' σ h := by
  unfold Concludes
  refine and_congr_left fun _ => forall₂_congr fun a ha => ?_
  rw [hnegated a ha]

/-- A rule derives a tuple by a valuation that puts a positive atom among the new tuples. -/
def DerivesAnew (r : Rule) (E : Evaluator) (D D' : Database p) (a : Atom) (h : Tuple) : Prop :=
  ∃ σ, (∀ b ∈ r.positive, b.under σ ∈ D'.rows b.predicate)
    ∧ a.under σ ∈ D'.rows a.predicate \ D.rows a.predicate ∧ r.Concludes E D' σ h

/-- A rule derives from the grown database what it derived before and what it derives anew. -/
theorem mem_derived_grown_iff (hr : r.Safe) (hflag : ∀ e ∈ r.body, e.Flagged)
    (hfresh : r.FreshTargets) (hsub : ∀ name, D.rows name ⊆ D'.rows name)
    (hnegated : ∀ a ∈ r.negative, D.rows a.predicate = D'.rows a.predicate) {h : Tuple} :
    h ∈ r.derived E D'
      ↔ h ∈ r.derived E D ∨ ∃ a ∈ r.positive, r.DerivesAnew E D D' a h := by
  rw [mem_derived_iff hr hflag hfresh, mem_derived_iff hr hflag hfresh]
  constructor
  · rintro ⟨σ, hall, hconcludes⟩
    by_cases hold : ∀ a ∈ r.positive, a.under σ ∈ D.rows a.predicate
    · exact .inl ⟨σ, hold, (concludes_congr hnegated σ h).2 hconcludes⟩
    · push Not at hold
      obtain ⟨a, ha, hnew⟩ := hold
      exact .inr ⟨a, ha, σ, hall, ⟨hall a ha, hnew⟩, hconcludes⟩
  · rintro (⟨σ, hall, hconcludes⟩ | ⟨a, -, σ, hall, -, hconcludes⟩)
    · exact ⟨σ, fun b hb => hsub _ (hall b hb), (concludes_congr hnegated σ h).1 hconcludes⟩
    · exact ⟨σ, hall, hconcludes⟩

end Rule

/-- Driven by the new tuples, an equation derives what its rule derives anew by the driving atom. -/
theorem Compilation.StandsFor.mem_derivedFrom_new_iff {p : Program} {r : Rule} {a : Atom}
    {e : Equation} (h : StandsFor p r a e) (hfresh : r.FreshTargets) (E : Evaluator)
    (D D' : Database p) (t : Tuple) :
    t ∈ e.derivedFrom E (D'.rows e.driving \ D.rows e.driving) D' ↔ r.DerivesAnew E D D' a t := by
  rw [h.driving]
  exact h.mem_derivedFrom hfresh E D' _ Set.sdiff_subset t

namespace Plan

/-- **Plans are complete for increments.** Take a request that compiles, with no assigned variable
in a positive atom of its rule, and a database that grows without a change of the negated
predicates. The facts that one application of the rules derives from the grown database are those it
derived before and those that the equations of all strata derive when each is driven by the new
tuples of its driving predicate alone. -/
theorem consequences_grown_eq {request : Request} {plan : Plan}
    (h : (compile request).result = .ok plan)
    (hfresh : ∀ r ∈ plan.program.rules, r.FreshTargets) (E : Evaluator)
    (D D' : Database plan.program) (hsub : ∀ name, D.rows name ⊆ D'.rows name)
    (hnegated : ∀ name ∈ plan.program.negated, D.rows name = D'.rows name) :
    Program.ofSource request.file request.source request.mode = .ok plan.program
      ∧ plan.program.consequences E D'
        = plan.program.consequences E D ∪ plan.increment E D D' := by
  obtain ⟨hsource, hcovers⟩ := covers_of_compile h
  have hacc := Program.accepted_of_ofSource hsource
  have hgrown : ∀ r ∈ plan.program.rules, ∀ t, t ∈ r.derived E D'
      ↔ t ∈ r.derived E D ∨ ∃ a ∈ r.positive, r.DerivesAnew E D D' a t := by
    intro r hr t
    exact Rule.mem_derived_grown_iff (hacc.safe r hr) (hacc.flagged r hr) (hfresh r hr) hsub
      fun a ha => hnegated _ (hacc.negated r hr a ha)
  refine ⟨hsource, Set.ext fun ⟨name, t⟩ => ⟨?_, ?_⟩⟩
  · rintro ⟨r, hr, hname, ht⟩
    rcases (hgrown r hr t).1 ht with hold | ⟨a, ha, hanew⟩
    · exact .inl ⟨r, hr, hname, hold⟩
    · obtain ⟨e, he, hstands⟩ := hcovers.complete r hr a ha
      exact .inr ⟨e, he, hname.trans hstands.head.symm,
        (hstands.mem_derivedFrom_new_iff (hfresh r hr) E D D' t).2 hanew⟩
  · rintro (⟨r, hr, hname, ht⟩ | ⟨e, he, hname, ht⟩)
    · exact ⟨r, hr, hname, (hgrown r hr t).2 (.inl ht)⟩
    · obtain ⟨r, hr, a, ha, hstands⟩ := hcovers.sound e he
      have hanew := (hstands.mem_derivedFrom_new_iff (hfresh r hr) E D D' t).1 ht
      exact ⟨r, hr, hname.trans hstands.head, (hgrown r hr t).2 (.inr ⟨a, ha, hanew⟩)⟩

/-- Paths of two edges, and the nodes that have none back to themselves. -/
def pathsRequest : Request where
  file := "paths.dl"
  source := "path(X, Z) :- edge(X, Y), edge(Y, Z).\nlonely(X) :- node(X), not path(X, X)."
  outputs := []
  mode := .failFast

/-- Edges arrive in a database that had none, so both edges of a path are new. -/
theorem consequences_grown_eq_paths :
    ∃ plan : Plan, (compile pathsRequest).result = .ok plan
      ∧ "path" ∈ plan.program.negated
      ∧ ∃ D D' : Database plan.program, D.rows "edge" = ∅ ∧ D'.rows "edge" = {[1, 2], [2, 1]}
        ∧ ∀ E, plan.program.consequences E D'
          = plan.program.consequences E D ∪ plan.increment E D D' := by
  have hread : (match Program.ofSource pathsRequest.file pathsRequest.source
        pathsRequest.mode with
      | .ok p => decide (p.arity? "edge" = some 2 ∧ p.negated = ["path"]
        ∧ (∀ r ∈ p.rules, r.FreshTargets)
        ∧ ∀ r ∈ p.rules, r.negative = []
          ∨ ∀ q ∈ p.rules, ∀ l ∈ q.literals, l.atom.predicate ≠ r.head.predicate)
      | .error _ => false) = true := by
    decide +kernel
  split at hread
  case h_2 => cases hread
  case h_1 p hp =>
    obtain ⟨harity, hnegated, hfresh, hunread⟩ := of_decide_eq_true hread
    have hgraph := (Program.accepted_of_ofSource hp).graph
    have hnone : ∀ r ∈ p.rules, ¬p.RecursesThroughNegation r := by
      intro r hr
      rcases hunread r hr with hnil | hhead
      · rintro ⟨a, ha, -⟩
        rw [hnil] at ha
        exact List.not_mem_nil ha
      · exact Layering.not_recursesThroughNegation hgraph hr hhead
    obtain ⟨strata, passes, hlayering, -⟩ := Layering.ofProgram_isOk hgraph hnone
    have houtputs : Solution.outputs pathsRequest.outputs = [] := List.mergeSort_nil
    obtain ⟨plan, hplan, rfl⟩ := compile_isOk hp hlayering fun x hx => by
      rw [houtputs] at hx
      exact absurd hx List.not_mem_nil
    let D : Database plan.program := ⟨fun _ => ∅, fun h => absurd h (Set.notMem_empty _)⟩
    let D' : Database plan.program :=
      { rows := fun name => {t | name = "edge" ∧ (t = [1, 2] ∨ t = [2, 1])}
        arity_eq := by
          rintro name t ⟨rfl, rfl | rfl⟩
          · exact harity
          · exact harity }
    refine ⟨plan, hplan, by rw [hnegated]; exact List.mem_cons_self, D, D', rfl, ?_, fun E => ?_⟩
    · ext t
      exact and_iff_right rfl
    · refine (consequences_grown_eq hplan hfresh E D D' (fun _ => Set.empty_subset _) ?_).2
      intro name hname
      rw [hnegated, List.mem_singleton] at hname
      subst hname
      ext t
      exact ⟨fun h => absurd h (Set.notMem_empty _), fun h => absurd h.1 (by decide)⟩

end Plan

end RulePlan
