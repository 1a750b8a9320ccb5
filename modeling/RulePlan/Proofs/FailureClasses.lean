import RulePlan.Proofs.CompiledPlan
import RulePlan.Proofs.NegativeCycles
import RulePlan.Proofs.PredicateNames

/-!
# RulePlan.Proofs.FailureClasses — how a compilation can end

The stages run one after the other, and three of them can fail: reading the source, layering its
rules, and looking up the requested outputs. Ordering never fails, and neither does compiling a
stratum, because reading has established all that the equations rely on. So a compilation ends with
a plan, with the diagnostics of refused lines, with one cycle, or with one unknown output; and it
ends with an unknown output exactly if a requested name is no predicate of the program.
-/

namespace RulePlan

/-! ## Diagnostics of refused lines -/

namespace Intake

variable {file : String} {mode : Mode}

/-- Every verdict is that on one of the lines. -/
theorem exists_step_of_mem_run {ls : List SourceLine} :
    ∀ {s : Intake}, ∀ v ∈ (run file mode s ls).2, ∃ l ∈ ls, ∃ t, v = (step file t l).2 := by
  induction ls with
  | nil =>
    intro s v hv
    exact absurd hv List.not_mem_nil
  | cons l ls ih =>
    intro s v hv
    have later : ∀ t, v ∈ (run file mode t ls).2 → ∃ m ∈ l :: ls, ∃ t, v = (step file t m).2 := by
      intro t ht
      obtain ⟨m, hm, hstep⟩ := ih v ht
      exact ⟨m, List.mem_cons_of_mem l hm, hstep⟩
    have here : v = (step file s l).2 → ∃ m ∈ l :: ls, ∃ t, v = (step file t m).2 :=
      fun h => ⟨l, List.mem_cons_self, s, h⟩
    rw [run] at hv
    split at hv
    case h_1 s' d heq =>
      cases mode with
      | failFast => exact here (by rw [heq, List.mem_singleton.1 hv])
      | accumulate =>
        rcases List.mem_cons.1 hv with hv | hv
        · exact here (by rw [heq, hv])
        · exact later s' hv
    case h_2 s' r heq =>
      rcases List.mem_cons.1 hv with hv | hv
      · exact here (by rw [heq, hv])
      · exact later s' hv

end Intake

/-- The diagnostic blames a rule line of a source for what it says or how it says it. -/
structure Diagnostic.BlamesLine (d : Diagnostic) (file source : String) : Prop where
  file : d.file = file
  line : ∃ l ∈ SourceLine.ofSource source, d.line = l.number
  category : d.category ∈ [.parse, .safety, .redefinition, .structural]

theorem Refusal.category_mem (cause : Refusal) :
    cause.category ∈ [.parse, .safety, .redefinition, .structural] := by
  cases cause <;> simp [category]

theorem Intake.report_of_refused {file : String} {s : Intake} {l : SourceLine} {d : Diagnostic}
    (h : (step file s l).2 = .refused d) :
    d.file = file ∧ d.line = l.number
      ∧ d.category ∈ [.parse, .safety, .redefinition, .structural] := by
  cases hread : (Rule.parse s.symbols l.number l.text).1 with
  | error fault =>
    obtain rfl : fault.report file l.number = d := by simpa [step, hread] using h
    exact ⟨rfl, rfl, List.mem_cons_self⟩
  | ok rule =>
    cases hcheck : rule.check s.arities with
    | error cause =>
      obtain rfl : cause.report file l.number = d := by simpa [step, hread, hcheck] using h
      exact ⟨rfl, rfl, cause.category_mem⟩
    | ok fixed => simp [step, hread, hcheck] at h

/-- A source that is not accepted comes with diagnostics, each for one of its rule lines. -/
theorem Program.blames_of_ofSource {file source : String} {mode : Mode} {ds : List Diagnostic}
    (h : ofSource file source mode = .error ds) : ds ≠ [] ∧ ∀ d ∈ ds, d.BlamesLine file source := by
  obtain ⟨hne, rfl⟩ := Ingestion.result_eq_error_iff.1
    (show (Ingestion.ofLines file mode (SourceLine.ofSource source)).result = _ from h)
  refine ⟨hne, ?_⟩
  intro d hd
  obtain ⟨v, hv, hdiagnostic⟩ := List.mem_filterMap.1 hd
  obtain ⟨l, hl, s, rfl⟩ := Intake.exists_step_of_mem_run v hv
  have hrefused : (Intake.step file s l).2 = .refused d := by
    cases hstep : (Intake.step file s l).2 with
    | accepted r => simp [hstep, Verdict.diagnostic?] at hdiagnostic
    | refused d' => simpa [hstep, Verdict.diagnostic?] using hdiagnostic
  obtain ⟨hfile, hline, hcategory⟩ := Intake.report_of_refused hrefused
  exact ⟨hfile, ⟨l, hl, hline⟩, hcategory⟩

/-! ## Outputs -/

namespace Solution

theorem mem_outputs_iff {requested : List String} {x : String} :
    x ∈ outputs requested ↔ x ∈ requested ∧ x ≠ "" := by
  unfold outputs
  rw [Names.mem_sorted, Names.mem_ofList, List.mem_filter, decide_eq_true_eq]

theorem unknownOutput?_eq_none_iff {p : Program} {names : List String} :
    unknownOutput? p names = none ↔ ∀ name ∈ names, p.symbols.contains name = true := by
  unfold unknownOutput?
  rw [Option.map_eq_none_iff, List.find?_eq_none]
  simp only [Bool.not_eq_true', Bool.not_eq_false]

/-- All outputs are known iff the rules mention them. -/
theorem unknownOutput?_eq_none_iff_mentions {file source : String} {mode : Mode} {p : Program}
    (h : Program.ofSource file source mode = .ok p) {requested : List String} :
    unknownOutput? p (outputs requested) = none
      ↔ ∀ name ∈ requested, name ≠ "" → p.Mentions name := by
  rw [unknownOutput?_eq_none_iff]
  simp only [mem_outputs_iff, Program.contains_symbols_iff h, and_imp]

end Solution

/-! ## The stages together -/

namespace Traced

variable {α β : Type}

/-- Two stages in sequence fail as the first does, or as the second does after it. -/
theorem andThen_eq_error_iff {t : Traced α} {next : α → Traced β} {ds : List Diagnostic} :
    (t.andThen next).result = .error ds
      ↔ t.result = .error ds ∨ ∃ a, t.result = .ok a ∧ (next a).result = .error ds := by
  unfold andThen
  cases t.result with
  | error es => simp
  | ok a => simp

end Traced

namespace Plan

theorem ingestStage_eq_error_iff {file source : String} {mode : Mode} {ds : List Diagnostic} :
    (ingestStage file mode (SourceLine.ofSource source)).result = .error ds
      ↔ Program.ofSource file source mode = .error ds := by
  unfold ingestStage Program.ofSource
  dsimp only
  cases (Ingestion.ofLines file mode (SourceLine.ofSource source)).result with
  | error es => exact Iff.rfl
  | ok p => exact Iff.rfl

theorem layerStage_eq_error_iff {p : Program} {ds : List Diagnostic} :
    (layerStage p).result = .error ds
      ↔ ∃ fault, (Layering.ofProgram p).result = .error fault ∧ ds = [fault.report p.file] := by
  unfold layerStage
  dsimp only
  cases (Layering.ofProgram p).result with
  | error fault => simp [Traced.after, Traced.failure, eq_comm]
  | ok found => simp [Traced.after, Traced.success]

/-- The order in which the predicates of a program are evaluated. -/
def orderOf (p : Program) : EvalOrder := EvalOrder.ofGraph p.graph p.intensional p.negated

theorem solutionStage_eq_ok_iff {p : Program} {plans : List StratumPlan} {outputs : List String}
    {solution : List (String × List Reason)} :
    (solutionStage p plans outputs).result = .ok solution
      ↔ Solution.unknownOutput? p outputs = none
        ∧ Solution.ofRequirements (Solution.requirements p plans outputs) = solution := by
  unfold solutionStage Solution.ofPlans
  cases Solution.unknownOutput? p outputs with
  | some fault => simp [Traced.failure]
  | none => simp [Traced.success]

theorem solutionStage_eq_error_iff {p : Program} {plans : List StratumPlan} {outputs : List String}
    {ds : List Diagnostic} :
    (solutionStage p plans outputs).result = .error ds
      ↔ ∃ fault, Solution.unknownOutput? p outputs = some fault ∧ ds = [fault.report p.file 0] := by
  unfold solutionStage Solution.ofPlans
  cases Solution.unknownOutput? p outputs with
  | some fault => simp [Traced.failure, eq_comm]
  | none => simp [Traced.success]

/-- What a plan is made of, stage by stage. -/
theorem compile_eq_ok_iff {r : Request} {plan : Plan} :
    (compile r).result = .ok plan
      ↔ ∃ p strata passes plans, Program.ofSource r.file r.source r.mode = .ok p
        ∧ (Layering.ofProgram p).result = .ok (strata, passes)
        ∧ (strataStage p (orderOf p) .empty strata).result = .ok plans
        ∧ Solution.unknownOutput? p (Solution.outputs r.outputs) = none
        ∧ plan = {
          file := r.file
          key := r.key
          program := p
          strata := plans
          order := orderOf p
          solution := Solution.ofRequirements
            (Solution.requirements p plans (Solution.outputs r.outputs))
          output := Solution.outputs r.outputs } := by
  constructor
  · intro h
    obtain ⟨p, hingest, h⟩ := Traced.andThen_eq_ok_iff.1 (show (stages r _).result = _ from h)
    obtain ⟨strata, hlayer, h⟩ := Traced.andThen_eq_ok_iff.1 h
    obtain ⟨order, horder, h⟩ := Traced.andThen_eq_ok_iff.1 h
    obtain rfl : orderOf p = order := Except.ok.inj horder
    obtain ⟨plans, hplans, h⟩ := Traced.andThen_eq_ok_iff.1 h
    obtain ⟨solution, hsolution, h⟩ := Traced.andThen_eq_ok_iff.1 h
    obtain ⟨passes, hlayering⟩ := layerStage_eq_ok_iff.1 hlayer
    obtain ⟨hknown, rfl⟩ := solutionStage_eq_ok_iff.1 hsolution
    exact ⟨p, strata, passes, plans, ingestStage_eq_ok_iff.1 hingest, hlayering, hplans, hknown,
      (Except.ok.inj h).symm⟩
  · rintro ⟨p, strata, passes, plans, hsource, hlayering, hplans, hknown, rfl⟩
    show (stages r _).result = _
    exact Traced.andThen_eq_ok_iff.2 ⟨p, ingestStage_eq_ok_iff.2 hsource,
      Traced.andThen_eq_ok_iff.2 ⟨strata, layerStage_eq_ok_iff.2 ⟨passes, hlayering⟩,
      Traced.andThen_eq_ok_iff.2 ⟨orderOf p, rfl,
      Traced.andThen_eq_ok_iff.2 ⟨plans, hplans,
      Traced.andThen_eq_ok_iff.2 ⟨_, solutionStage_eq_ok_iff.2 ⟨hknown, rfl⟩, rfl⟩⟩⟩⟩⟩

/-- A check that a request compiles: its source is read, no rule reads a predicate whose rules
negate, and all outputs are mentioned. -/
def negatesLast (r : Request) : Bool :=
  match Program.ofSource r.file r.source r.mode with
  | .error _ => false
  | .ok p => decide ((∀ q ∈ p.rules, q.negative = []
      ∨ ∀ s ∈ p.rules, ∀ l ∈ s.literals, l.atom.predicate ≠ q.head.predicate)
    ∧ ∀ name ∈ r.outputs, ∃ q ∈ p.rules, name ∈ q.predicates)

theorem compile_isOk_of_negatesLast {r : Request} (h : negatesLast r = true) :
    ∃ plan, (compile r).result = .ok plan := by
  unfold negatesLast at h
  split at h
  case h_1 => cases h
  case h_2 p hsource =>
    obtain ⟨hunread, houtputs⟩ := of_decide_eq_true h
    have hacc := Program.accepted_of_ofSource hsource
    have hnone : ∀ q ∈ p.rules, ¬p.RecursesThroughNegation q := by
      intro q hq
      rcases hunread q hq with hnil | hhead
      · rintro ⟨a, ha, -⟩
        rw [hnil] at ha
        exact List.not_mem_nil ha
      · exact Layering.not_recursesThroughNegation hacc.graph hq hhead
    obtain ⟨strata, passes, hlayering, -⟩ := Layering.ofProgram_isOk hacc.graph hnone
    obtain ⟨plans, hplans, -⟩ := strataStage_covers hacc (orderOf p) .empty strata
    have hknown := (Solution.unknownOutput?_eq_none_iff_mentions hsource).2
      fun name hname _ => houtputs name hname
    exact ⟨_, compile_eq_ok_iff.2 ⟨p, strata, passes, plans, hsource, hlayering, hplans, hknown, rfl⟩⟩

/-- Which stage a compilation fails in, and with what. -/
theorem compile_eq_error_iff {r : Request} {ds : List Diagnostic} :
    (compile r).result = .error ds
      ↔ Program.ofSource r.file r.source r.mode = .error ds
        ∨ ∃ p, Program.ofSource r.file r.source r.mode = .ok p
          ∧ ((∃ fault, (Layering.ofProgram p).result = .error fault ∧ ds = [fault.report p.file])
            ∨ ∃ strata passes fault, (Layering.ofProgram p).result = .ok (strata, passes)
              ∧ Solution.unknownOutput? p (Solution.outputs r.outputs) = some fault
              ∧ ds = [fault.report p.file 0]) := by
  show (stages r _).result = _ ↔ _
  unfold stages
  rw [Traced.andThen_eq_error_iff, ingestStage_eq_error_iff]
  refine or_congr_right (exists_congr fun p => ?_)
  rw [ingestStage_eq_ok_iff]
  refine and_congr_right fun hsource => ?_
  rw [Traced.andThen_eq_error_iff, layerStage_eq_error_iff]
  refine or_congr_right ?_
  constructor
  · rintro ⟨strata, hlayer, h⟩
    obtain ⟨passes, hlayering⟩ := layerStage_eq_ok_iff.1 hlayer
    rcases Traced.andThen_eq_error_iff.1 h with horder | ⟨order, -, h⟩
    · exact nomatch horder
    · -- the strata of an accepted program compile, so only the outputs are left to blame
      obtain ⟨plans, hplans, -⟩ := strataStage_covers (Program.accepted_of_ofSource hsource) order
        .empty strata
      rcases Traced.andThen_eq_error_iff.1 h with hstrata | ⟨plans, -, h⟩
      · exact nomatch hplans.symm.trans hstrata
      · rcases Traced.andThen_eq_error_iff.1 h with hsolution | ⟨_, -, h⟩
        · obtain ⟨fault, hunknown, hds⟩ := solutionStage_eq_error_iff.1 hsolution
          exact ⟨strata, passes, fault, hlayering, hunknown, hds⟩
        · exact nomatch h
  · rintro ⟨strata, passes, fault, hlayering, hunknown, hds⟩
    obtain ⟨plans, hplans, -⟩ := strataStage_covers (Program.accepted_of_ofSource hsource)
      (orderOf p) .empty strata
    exact ⟨strata, layerStage_eq_ok_iff.2 ⟨passes, hlayering⟩,
      Traced.andThen_eq_error_iff.2 (.inr ⟨orderOf p, rfl,
      Traced.andThen_eq_error_iff.2 (.inr ⟨plans, hplans,
      Traced.andThen_eq_error_iff.2 (.inl
        (solutionStage_eq_error_iff.2 ⟨fault, hunknown, hds⟩))⟩)⟩)⟩

/-- The one fault of layering an accepted program is a cycle at one of its rules. -/
theorem exists_rule_of_layerFault {file source : String} {mode : Mode} {p : Program}
    (h : Program.ofSource file source mode = .ok p) {fault : LayerFault}
    (hfault : (Layering.ofProgram p).result = .error fault) : ∃ r ∈ p.rules, fault.line = r.line := by
  have hgraph := (Program.accepted_of_ofSource h).graph
  unfold Layering.ofProgram at hfault
  cases hcycle : Layering.negativeCycle? p with
  | none =>
    have hnone := (Layering.negativeCycle?_eq_none_iff hgraph).1 hcycle
    obtain ⟨strata, passes, hok, -⟩ := Layering.ofProgram_isOk hgraph hnone
    unfold Layering.ofProgram at hok
    rw [hcycle] at hok hfault
    exact nomatch hok.symm.trans hfault
  | some cycle =>
    rw [hcycle] at hfault
    obtain rfl := Except.error.inj hfault
    obtain ⟨before, r, after, hsplit, -, -, head, negated, members, rfl⟩ :=
      Layering.negativeCycle?_eq_some hgraph hcycle
    exact ⟨r, by rw [hsplit]; exact List.mem_append_right _ List.mem_cons_self, rfl⟩

/-- **Failures are classified, and no consistency check inside the strata fires.** A compilation
ends with a plan; or with the diagnostics of reading, each for a rule line of the file and in a
category of reading; or with one cycle, at the line of a rule; or with one inconsistency, at no
line. The last happens iff the source is read and layered and some requested output that is not
empty is no predicate of the program. Every stratum of a program that was read compiles, whatever
views and order of evaluation it is given. -/
theorem compile_classified (r : Request) :
    ((∃ plan, (compile r).result = .ok plan)
      ∨ (∃ ds, (compile r).result = .error ds ∧ ds ≠ []
        ∧ Program.ofSource r.file r.source r.mode = .error ds
        ∧ ∀ d ∈ ds, d.BlamesLine r.file r.source)
      ∨ (∃ d p, (compile r).result = .error [d]
        ∧ Program.ofSource r.file r.source r.mode = .ok p
        ∧ d.file = r.file ∧ d.category = .cycle ∧ ∃ rule ∈ p.rules, d.line = rule.line)
      ∨ ∃ d, (compile r).result = .error [d]
        ∧ d.file = r.file ∧ d.category = .consistency ∧ d.line = 0)
    ∧ ((∃ ds, (compile r).result = .error ds ∧ ∃ d ∈ ds, d.category = .consistency)
      ↔ ∃ p, Program.ofSource r.file r.source r.mode = .ok p
        ∧ (∃ strata passes, (Layering.ofProgram p).result = .ok (strata, passes))
        ∧ ∃ name ∈ r.outputs, name ≠ "" ∧ ¬p.Mentions name)
    ∧ ∀ p, Program.ofSource r.file r.source r.mode = .ok p → ∀ order registry stratum,
      ∃ plan, (StratumPlan.ofStratum p order registry stratum).result = .ok plan := by
  refine ⟨?_, ⟨?_, ?_⟩, ?_⟩
  · cases hresult : (compile r).result with
    | ok plan => exact .inl ⟨plan, rfl⟩
    | error ds =>
      right
      rcases compile_eq_error_iff.1 hresult with
        hsource | ⟨p, hsource, ⟨fault, hfault, rfl⟩ | ⟨_, _, fault, -, hunknown, rfl⟩⟩
      · obtain ⟨hne, hblames⟩ := Program.blames_of_ofSource hsource
        exact .inl ⟨ds, rfl, hne, hsource, hblames⟩
      · have hfile := Program.file_of_ofSource hsource
        exact .inr (.inl ⟨_, p, rfl, hsource, hfile, rfl,
          exists_rule_of_layerFault hsource hfault⟩)
      · exact .inr (.inr ⟨_, rfl, Program.file_of_ofSource hsource, rfl, rfl⟩)
  · rintro ⟨ds, hresult, d, hd, hcategory⟩
    rcases compile_eq_error_iff.1 hresult with
      hsource | ⟨p, hsource, ⟨fault, -, rfl⟩ | ⟨strata, passes, fault, hlayering, hunknown, rfl⟩⟩
    · -- reading has categories of its own
      have hread := ((Program.blames_of_ofSource hsource).2 d hd).category
      rw [hcategory] at hread
      exact absurd hread (by decide)
    · rw [List.mem_singleton.1 hd] at hcategory
      exact nomatch hcategory
    · refine ⟨p, hsource, ⟨strata, passes, hlayering⟩, ?_⟩
      by_contra hall
      push Not at hall
      rw [(Solution.unknownOutput?_eq_none_iff_mentions hsource).2 hall] at hunknown
      exact nomatch hunknown
  · rintro ⟨p, hsource, ⟨strata, passes, hlayering⟩, name, hname, hne, hunmentioned⟩
    cases hunknown : Solution.unknownOutput? p (Solution.outputs r.outputs) with
    | none =>
      exact absurd ((Solution.unknownOutput?_eq_none_iff_mentions hsource).1 hunknown name hname hne)
        hunmentioned
    | some fault =>
      refine ⟨_, compile_eq_error_iff.2 (.inr ⟨p, hsource,
        .inr ⟨strata, passes, fault, hlayering, hunknown, rfl⟩⟩), _, List.mem_singleton.2 rfl, rfl⟩
  · intro p hsource order registry stratum
    obtain ⟨plan, hplan, -⟩ := StratumPlan.ofStratum_covers (Program.accepted_of_ofSource hsource)
      order registry stratum
    exact ⟨plan, hplan⟩

end Plan

end RulePlan
