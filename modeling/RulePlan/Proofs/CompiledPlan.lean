import RulePlan.Plan.Compile
import RulePlan.Proofs.CompiledRule
import RulePlan.Proofs.Strata

/-!
# RulePlan.Proofs.CompiledPlan — the equations of a plan cover the rules of its program

Rules are compiled stratum after stratum, with the registry of views threaded through. No rule of an
accepted program fails, and which views exist does not matter to what an equation stands for. Since
every rule is in a stratum, each positive atom of each rule drives an equation of the plan, and the
plan has no other equations.
-/

namespace RulePlan

/-- Equations that cover rules: every positive atom of every rule drives one, and each is driven by
such an atom. -/
structure CoversAll (p : Program) (rules : List Rule) (equations : List Equation) : Prop where
  complete : ∀ r ∈ rules, ∀ a ∈ r.positive, ∃ e ∈ equations, Compilation.StandsFor p r a e
  sound : ∀ e ∈ equations, ∃ r ∈ rules, ∃ a ∈ r.positive, Compilation.StandsFor p r a e

theorem CoversAll.nil (p : Program) : CoversAll p [] [] where
  complete := fun _ hr => absurd hr List.not_mem_nil
  sound := fun _ he => absurd he List.not_mem_nil

theorem CoversAll.append {p : Program} {rules rules' : List Rule}
    {equations equations' : List Equation} (h : CoversAll p rules equations)
    (h' : CoversAll p rules' equations') :
    CoversAll p (rules ++ rules') (equations ++ equations') where
  complete := by
    intro r hr a ha
    rcases List.mem_append.1 hr with hr | hr
    · obtain ⟨e, he, hstands⟩ := h.complete r hr a ha
      exact ⟨e, List.mem_append_left _ he, hstands⟩
    · obtain ⟨e, he, hstands⟩ := h'.complete r hr a ha
      exact ⟨e, List.mem_append_right _ he, hstands⟩
  sound := by
    intro e he
    rcases List.mem_append.1 he with he | he
    · obtain ⟨r, hr, hstands⟩ := h.sound e he
      exact ⟨r, List.mem_append_left _ hr, hstands⟩
    · obtain ⟨r, hr, hstands⟩ := h'.sound e he
      exact ⟨r, List.mem_append_right _ hr, hstands⟩

theorem Compilation.Covers.coversAll {p : Program} {r : Rule} {equations : List Equation}
    (h : Covers p r equations) : CoversAll p [r] equations where
  complete := by
    intro q hq
    rw [List.mem_singleton.1 hq]
    exact h.complete
  sound := fun e he => ⟨r, List.mem_singleton.2 rfl, h.sound e he⟩

/-! ## Strata -/

/-- The rules of a list of places compile, and their equations cover them. -/
theorem Compilation.ofRules_covers {p : Program} (hp : p.Accepted) (registry : ViewRegistry)
    (rules : List (Rule × Nat)) (hrules : ∀ ri ∈ rules, ri.1 ∈ p.rules) :
    ∃ equations, (ofRules p registry rules).result = .ok equations
      ∧ CoversAll p (rules.map Prod.fst) equations := by
  induction rules generalizing registry with
  | nil => exact ⟨[], rfl, CoversAll.nil p⟩
  | cons ri rules ih =>
    have hr : ri.1 ∈ p.rules := hrules ri List.mem_cons_self
    obtain ⟨equations, hfirst, hcovers⟩ := ofRule_covers hp hr registry (ri.2 + 1)
    obtain ⟨more, hrest, hmore⟩ := ih (ofRule p registry ri.1 (ri.2 + 1)).registry
      fun qj hqj => hrules qj (List.mem_cons_of_mem ri hqj)
    exact ⟨equations ++ more, result_andThen hfirst hrest, hcovers.coversAll.append hmore⟩

/-- The rules of a stratum, in order. -/
def Stratum.members (p : Program) (s : Stratum) : List Rule := s.rules.filterMap (p.rules[·]?)

/-- The rules of a stratum with their places, as they are compiled. -/
def Stratum.placed (p : Program) (s : Stratum) : List (Rule × Nat) :=
  s.rules.filterMap fun i => p.rules[i]?.map (·, i)

theorem Stratum.mem_rules_of_placed {p : Program} {s : Stratum} :
    ∀ ri ∈ s.placed p, ri.1 ∈ p.rules := by
  intro ri hri
  obtain ⟨i, -, hi⟩ := List.mem_filterMap.1 hri
  obtain ⟨r, hr, rfl⟩ := Option.map_eq_some_iff.1 hi
  exact List.mem_of_getElem? hr

theorem Stratum.map_fst_placed (p : Program) (s : Stratum) :
    (s.placed p).map Prod.fst = s.members p := by
  unfold placed members
  rw [List.map_filterMap]
  congr 1
  funext i
  cases p.rules[i]? <;> rfl

theorem StratumPlan.ofStratum_covers {p : Program} (hp : p.Accepted) (order : EvalOrder)
    (registry : ViewRegistry) (s : Stratum) :
    ∃ plan, (ofStratum p order registry s).result = .ok plan
      ∧ CoversAll p (s.members p) plan.equations := by
  obtain ⟨equations, hresult, hcovers⟩ :=
    Compilation.ofRules_covers hp registry (s.placed p) Stratum.mem_rules_of_placed
  rw [Stratum.map_fst_placed] at hcovers
  unfold Stratum.placed at hresult
  unfold ofStratum
  dsimp only
  rw [hresult]
  exact ⟨_, rfl, hcovers⟩

/-! ## Stages -/

namespace Traced

variable {α β : Type}

/-- Two stages in sequence succeed iff both do. -/
theorem andThen_eq_ok_iff {t : Traced α} {next : α → Traced β} {b : β} :
    (t.andThen next).result = .ok b ↔ ∃ a, t.result = .ok a ∧ (next a).result = .ok b := by
  unfold andThen
  cases t.result with
  | error ds => exact ⟨fun h => (nomatch h), fun ⟨a, h, _⟩ => (nomatch h)⟩
  | ok a =>
    constructor
    · intro h
      exact ⟨a, rfl, h⟩
    · rintro ⟨a', ha', h⟩
      cases ha'
      exact h

end Traced

namespace Plan

theorem ingestStage_eq_ok_iff {file source : String} {mode : Mode} {p : Program} :
    (ingestStage file mode (SourceLine.ofSource source)).result = .ok p
      ↔ Program.ofSource file source mode = .ok p := by
  unfold ingestStage Program.ofSource
  dsimp only
  cases (Ingestion.ofLines file mode (SourceLine.ofSource source)).result with
  | error ds => exact Iff.rfl
  | ok q => exact Iff.rfl

theorem layerStage_eq_ok_iff {p : Program} {strata : List Stratum} :
    (layerStage p).result = .ok strata
      ↔ ∃ passes, (Layering.ofProgram p).result = .ok (strata, passes) := by
  unfold layerStage
  dsimp only
  cases (Layering.ofProgram p).result with
  | error fault => exact ⟨fun h => (nomatch h), fun ⟨_, h⟩ => (nomatch h)⟩
  | ok found =>
    obtain ⟨strata', passes⟩ := found
    constructor
    · intro h
      cases h
      exact ⟨passes, rfl⟩
    · rintro ⟨passes', h⟩
      cases h
      rfl

/-- Strata that compile one after another. Each starts with the registry of views that the one
before it left, and `final` is what the last one leaves. -/
inductive StrataRun (p : Program) (order : EvalOrder) :
    ViewRegistry → List Stratum → List StratumPlan → ViewRegistry → Prop
  | nil (registry : ViewRegistry) : StrataRun p order registry [] [] registry
  | cons {registry final : ViewRegistry} {s : Stratum} {strata : List Stratum} {plan : StratumPlan}
      {plans : List StratumPlan}
      (hplan : (StratumPlan.ofStratum p order registry s).result = .ok plan)
      (hrest : StrataRun p order (StratumPlan.ofStratum p order registry s).registry strata plans
        final) : StrataRun p order registry (s :: strata) (plan :: plans) final

/-- The stage of the strata succeeds iff they compile one after another. -/
theorem strataStage_eq_ok_iff {p : Program} {order : EvalOrder} {registry : ViewRegistry}
    {strata : List Stratum} {plans : List StratumPlan} :
    (strataStage p order registry strata).result = .ok plans
      ↔ ∃ final, StrataRun p order registry strata plans final := by
  constructor
  · intro h
    induction strata generalizing registry plans with
    | nil =>
      obtain rfl : [] = plans := Except.ok.inj h
      exact ⟨registry, .nil registry⟩
    | cons s strata ih =>
      unfold strataStage Traced.after at h
      dsimp only at h
      cases hplan : (StratumPlan.ofStratum p order registry s).result with
      | error d =>
        rw [hplan] at h
        cases h
      | ok plan =>
        rw [hplan] at h
        obtain ⟨-, -, h⟩ := Traced.andThen_eq_ok_iff.1 h
        obtain ⟨more, hmore, h⟩ := Traced.andThen_eq_ok_iff.1 h
        obtain rfl : plan :: more = plans := Except.ok.inj h
        obtain ⟨final, hrun⟩ := ih hmore
        exact ⟨final, .cons hplan hrun⟩
  · rintro ⟨final, hrun⟩
    induction hrun with
    | nil registry => rfl
    | cons hplan _ ih =>
      unfold strataStage Traced.after
      dsimp only
      rw [hplan]
      exact Traced.andThen_eq_ok_iff.2 ⟨(), rfl, Traced.andThen_eq_ok_iff.2 ⟨_, ih, rfl⟩⟩

/-- All strata compile, and together their equations cover their rules. -/
theorem strataStage_covers {p : Program} (hp : p.Accepted) (order : EvalOrder)
    (registry : ViewRegistry) (strata : List Stratum) :
    ∃ plans, (strataStage p order registry strata).result = .ok plans
      ∧ CoversAll p (strata.flatMap (Stratum.members p)) (plans.flatMap StratumPlan.equations) := by
  induction strata generalizing registry with
  | nil => exact ⟨[], rfl, CoversAll.nil p⟩
  | cons s strata ih =>
    obtain ⟨plan, hplan, hcovers⟩ := StratumPlan.ofStratum_covers hp order registry s
    obtain ⟨plans, hplans, hmore⟩ := ih (StratumPlan.ofStratum p order registry s).registry
    obtain ⟨final, hrun⟩ := strataStage_eq_ok_iff.1 hplans
    exact ⟨plan :: plans, strataStage_eq_ok_iff.2 ⟨final, .cons hplan hrun⟩, hcovers.append hmore⟩

/-- All equations of a plan, stratum after stratum. -/
def equations (plan : Plan) : List Equation := plan.strata.flatMap StratumPlan.equations

/-- Every rule of a layered program is in one of its strata. -/
theorem mem_members_iff {p : Program} {strata : List Stratum} {passes : Nat}
    (h : (Layering.ofProgram p).result = .ok (strata, passes)) {r : Rule} :
    r ∈ strata.flatMap (Stratum.members p) ↔ r ∈ p.rules := by
  constructor
  · intro hr
    obtain ⟨s, -, hs⟩ := List.mem_flatMap.1 hr
    obtain ⟨i, -, hi⟩ := List.mem_filterMap.1 hs
    exact List.mem_of_getElem? hi
  · intro hr
    obtain ⟨i, hi⟩ := List.mem_iff_getElem?.1 hr
    have hlt : i < p.rules.length := (List.getElem?_eq_some_iff.1 hi).1
    obtain ⟨s, ⟨hs, his⟩, -⟩ := (Layering.partitions_of_ofProgram h).unique i hlt
    exact List.mem_flatMap.2 ⟨s, hs, List.mem_filterMap.2 ⟨i, his, hi⟩⟩

/-- A plan comes from the program of its source, and its equations cover all rules of it. -/
theorem covers_of_compile {request : Request} {plan : Plan}
    (h : (compile request).result = .ok plan) :
    Program.ofSource request.file request.source request.mode = .ok plan.program
      ∧ CoversAll plan.program plan.program.rules plan.equations := by
  obtain ⟨p, hingest, h⟩ := Traced.andThen_eq_ok_iff.1 (show (stages request _).result = _ from h)
  obtain ⟨strata, hlayer, h⟩ := Traced.andThen_eq_ok_iff.1 h
  obtain ⟨order, -, h⟩ := Traced.andThen_eq_ok_iff.1 h
  obtain ⟨plans, hplans, h⟩ := Traced.andThen_eq_ok_iff.1 h
  obtain ⟨solution, -, h⟩ := Traced.andThen_eq_ok_iff.1 h
  cases h
  have hsource := ingestStage_eq_ok_iff.1 hingest
  obtain ⟨passes, hlayering⟩ := layerStage_eq_ok_iff.1 hlayer
  obtain ⟨plans', hplans', hcovers⟩ :=
    strataStage_covers (Program.accepted_of_ofSource hsource) order .empty strata
  obtain rfl : plans' = plans := Except.ok.inj (hplans'.symm.trans hplans)
  refine ⟨hsource, ?_, ?_⟩
  · intro r hr
    exact hcovers.complete r ((mem_members_iff hlayering).2 hr)
  · intro e he
    obtain ⟨r, hr, hstands⟩ := hcovers.sound e he
    exact ⟨r, (mem_members_iff hlayering).1 hr, hstands⟩

/-- A program with layers compiles if all requested outputs are known to it. -/
theorem compile_isOk {request : Request} {p : Program}
    (hsource : Program.ofSource request.file request.source request.mode = .ok p)
    {strata : List Stratum} {passes : Nat}
    (hlayering : (Layering.ofProgram p).result = .ok (strata, passes))
    (houtputs : ∀ x ∈ Solution.outputs request.outputs, p.symbols.contains x = true) :
    ∃ plan, (compile request).result = .ok plan ∧ plan.program = p := by
  have hacc := Program.accepted_of_ofSource hsource
  obtain ⟨plans, hplans, -⟩ := strataStage_covers hacc
    (EvalOrder.ofGraph p.graph p.intensional p.negated) .empty strata
  have hknown : Solution.unknownOutput? p (Solution.outputs request.outputs) = none := by
    unfold Solution.unknownOutput?
    rw [Option.map_eq_none_iff, List.find?_eq_none]
    intro x hx
    rw [houtputs x hx]
    exact Bool.false_ne_true
  have hsolution : (solutionStage p plans (Solution.outputs request.outputs)).result
      = .ok (Solution.ofRequirements
        (Solution.requirements p plans (Solution.outputs request.outputs))) := by
    unfold solutionStage Solution.ofPlans
    rw [hknown]
    rfl
  refine ⟨_, Traced.andThen_eq_ok_iff.2 ⟨p, ingestStage_eq_ok_iff.2 hsource,
    Traced.andThen_eq_ok_iff.2 ⟨strata, layerStage_eq_ok_iff.2 ⟨passes, hlayering⟩,
    Traced.andThen_eq_ok_iff.2 ⟨_, rfl,
    Traced.andThen_eq_ok_iff.2 ⟨plans, hplans,
    Traced.andThen_eq_ok_iff.2 ⟨_, hsolution, rfl⟩⟩⟩⟩⟩, rfl⟩

end Plan

end RulePlan
