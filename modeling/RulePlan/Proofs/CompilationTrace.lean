import RulePlan.Proofs.MintedViews
import RulePlan.Proofs.PlannedRules
import RulePlan.Proofs.Relocations

/-!
# RulePlan.Proofs.CompilationTrace — the events of a compilation tell its story

The events fall into four parts: the opening, what became of each line, the stages after reading,
and the closing event. Each stage may send some events on the way and then one that closes it; the
first stage that fails sends a failure instead and nothing comes after it but the closing event.
This holds of every stage by itself and is kept when one stage is put after another, which is how
all of them are put together.

What the events count is then read off stage by stage, since no stage sends events under the names
of another. The failures among them are the diagnostics that the compilation ends with, one event
for each; if it ends with a plan there are none, and rules, strata and views are counted.
-/

namespace RulePlan

open Event (named named_append)

/-! ## Reading -/

/-- The event says that a line was accepted. -/
structure Event.Accepts (e : Event) (l : SourceLine) : Prop where
  name : e.name = ruleAccepted
  line : e.get "line" = .number l.number

/-- The event says that a line of a file was refused. -/
structure Event.Refuses (e : Event) (file : String) (l : SourceLine) : Prop where
  name : e.name = compileError
  file : e.get "file" = .text file
  line : e.get "line" = .number l.number

namespace Intake

/-- The events of reading lines: one for each line in order, which accepts or refuses it. In
fail-fast mode the first that refuses is the last. -/
inductive Reports (file : String) : Mode → List SourceLine → List Event → Prop
  | done {mode : Mode} : Reports file mode [] []
  | accepted {mode : Mode} {l : SourceLine} {ls : List SourceLine} {e : Event} {es : List Event}
      (he : e.Accepts l) (rest : Reports file mode ls es) : Reports file mode (l :: ls) (e :: es)
  | refused {l : SourceLine} {ls : List SourceLine} {e : Event} {es : List Event}
      (he : e.Refuses file l) (rest : Reports file .accumulate ls es) :
      Reports file .accumulate (l :: ls) (e :: es)
  | stopped {l : SourceLine} {ls : List SourceLine} {e : Event} (he : e.Refuses file l) :
      Reports file .failFast (l :: ls) [e]

section Run

variable {file : String} {s : Intake} {l : SourceLine}

theorem accepts_of_accepted {r : Rule} (h : (step file s l).2 = .accepted r) :
    (Event.ofVerdict (.accepted r)).Accepts l := by
  obtain ⟨fixed, hreads, -⟩ := step_of_accepted h
  exact ⟨rfl, congrArg Datum.number (line_of_reads hreads)⟩

theorem refuses_of_refused {d : Diagnostic} (h : (step file s l).2 = .refused d) :
    (Event.ofVerdict (.refused d)).Refuses file l := by
  obtain ⟨hfile, hline, -⟩ := report_of_refused h
  exact ⟨rfl, congrArg Datum.text hfile, congrArg Datum.number hline⟩

theorem run_reports (file : String) (mode : Mode) (ls : List SourceLine) (s : Intake) :
    Reports file mode ls ((run file mode s ls).2.map .ofVerdict) := by
  induction ls generalizing s with
  | nil => exact .done
  | cons l ls ih =>
    rw [run]
    split
    case h_1 s' d heq =>
      cases mode with
      | failFast => exact .stopped (refuses_of_refused (congrArg Prod.snd heq))
      | accumulate => exact .refused (refuses_of_refused (congrArg Prod.snd heq)) (ih s')
    case h_2 s' r heq => exact .accepted (accepts_of_accepted (congrArg Prod.snd heq)) (ih s')

/-- The rules read are those of the verdicts. -/
theorem rules_run (file : String) (mode : Mode) (ls : List SourceLine) (s : Intake) :
    (run file mode s ls).1.rules = s.rules ++ (run file mode s ls).2.filterMap Verdict.rule? := by
  induction ls generalizing s with
  | nil => exact (List.append_nil _).symm
  | cons l ls ih =>
    rw [run]
    split
    case h_1 s' d heq =>
      obtain ⟨hrules, -⟩ := step_of_refused (congrArg Prod.snd heq)
      rw [heq] at hrules
      cases mode with
      | failFast => exact hrules.trans (List.append_nil _).symm
      | accumulate => exact (ih s').trans (congrArg (· ++ _) hrules)
    case h_2 s' r heq =>
      obtain ⟨fixed, -, -, hafter⟩ := step_of_accepted (congrArg Prod.snd heq)
      rw [heq] at hafter
      subst hafter
      show (run file mode _ ls).1.rules = s.rules ++ r :: _
      rw [ih, List.append_assoc]
      rfl

end Run

end Intake

section Verdicts

theorem Event.named_eq_nil {name other : String} {events : List Event}
    (h : ∀ e ∈ events, e.name = other) (hne : other ≠ name) : named name events = [] :=
  List.filter_eq_nil_iff.2 fun e he hname => hne ((h e he).symm.trans (eq_of_beq hname))

theorem Event.named_eq_self {name : String} {events : List Event}
    (h : ∀ e ∈ events, e.name = name) : named name events = events :=
  List.filter_eq_self.2 fun e he => beq_iff_eq.2 (h e he)

theorem Event.named_compileError_verdicts (vs : List Verdict) :
    named compileError (vs.map ofVerdict)
      = (vs.filterMap Verdict.diagnostic?).map ofDiagnostic := by
  induction vs with
  | nil => rfl
  | cons v vs ih =>
    cases v with
    | accepted r =>
      rw [List.map_cons, named_cons_of_ne (show ruleAccepted ≠ compileError by decide), ih]
      rfl
    | refused d =>
      rw [List.map_cons,
        named_cons_of_eq (show (ofVerdict (.refused d)).name = compileError from rfl),
        ih]
      rfl

theorem Event.named_ruleAccepted_verdicts (vs : List Verdict) :
    named ruleAccepted (vs.map ofVerdict)
      = (vs.filterMap Verdict.rule?).map (ofVerdict ∘ .accepted) := by
  induction vs with
  | nil => rfl
  | cons v vs ih =>
    cases v with
    | accepted r =>
      rw [List.map_cons,
        named_cons_of_eq (show (ofVerdict (.accepted r)).name = ruleAccepted from rfl),
        ih]
      rfl
    | refused d =>
      rw [List.map_cons, named_cons_of_ne (show compileError ≠ ruleAccepted by decide), ih]
      rfl

/-- Without diagnostics all lines were accepted. -/
theorem Event.name_of_verdicts {vs : List Verdict} (h : vs.filterMap Verdict.diagnostic? = []) :
    ∀ e ∈ vs.map ofVerdict, e.name = ruleAccepted := by
  intro e he
  obtain ⟨v, hv, rfl⟩ := List.mem_map.1 he
  cases v with
  | accepted r => rfl
  | refused d => exact nomatch List.filterMap_eq_nil_iff.1 h _ hv

end Verdicts

/-! ## Stages -/

/-- A stage of a compilation, by the names of its events: those that it may send on the way, and the
one that closes it. -/
structure Stage where
  underway : List String
  closing : String

namespace Stage

/-- Rules move up, then the strata are found. -/
def layering : Stage := ⟨[Event.relocated], Event.stratifyCompleted⟩

/-- The order is found. -/
def ordering : Stage := ⟨[], Event.orderComputed⟩

/-- Views and aliases get their names, then the stratum is compiled. -/
def stratum : Stage := ⟨[Event.viewMinted, Event.aliasRenamed], Event.stratumCompiled⟩

/-- The predicates to keep are found. -/
def solving : Stage := ⟨[], Event.solutionComputed⟩

/-- The stages after reading, for a number of strata. -/
def all (strata : Nat) : List Stage :=
  layering :: ordering :: (List.replicate strata stratum ++ [solving])

/-- The names of the events of stages in order, and whether all of them were closed. A stage that
fails ends with a failure in place of its closing event, and no stage comes after it. -/
inductive Passes : List Stage → List String → Bool → Prop
  | finished : Passes [] [] true
  | closed {s : Stage} {ss : List Stage} {underway names : List String} {ok : Bool}
      (hunderway : ∀ name ∈ underway, name ∈ s.underway) (later : Passes ss names ok) :
      Passes (s :: ss) (underway ++ s.closing :: names) ok
  | failed {s : Stage} {ss : List Stage} {underway : List String}
      (hunderway : ∀ name ∈ underway, name ∈ s.underway) :
      Passes (s :: ss) (underway ++ [Event.compileError]) false

theorem Passes.append {ss ts : List Stage} {names more : List String} {ok ok' : Bool}
    (h : Passes ss names ok) (hok : ok = true) (h' : Passes ts more ok') :
    Passes (ss ++ ts) (names ++ more) ok' := by
  induction h with
  | finished => exact h'
  | closed hunderway _ ih =>
    rw [List.append_assoc]
    exact .closed hunderway (ih hok)
  | failed => cases hok

/-- A stage by itself, with nothing on the way. -/
theorem Passes.alone (s : Stage) : Passes [s] [s.closing] true :=
  @Passes.closed s [] [] [] true nofun .finished

theorem Passes.alone_failed (s : Stage) : Passes [s] [Event.compileError] false :=
  @Passes.failed s [] [] nofun

/-- After a failure no stage is passed. -/
theorem Passes.append_of_failed {ss : List Stage} {names : List String} {ok : Bool}
    (h : Passes ss names ok) (hok : ok = false) (ts : List Stage) :
    Passes (ss ++ ts) names false := by
  induction h with
  | finished => cases hok
  | closed hunderway _ ih => exact .closed hunderway (ih hok)
  | failed hunderway => exact .failed hunderway

/-- Only the events of its stages come up, and failures. -/
theorem Passes.mem {ss : List Stage} {names : List String} {ok : Bool} (h : Passes ss names ok) :
    ∀ name ∈ names, name = Event.compileError ∨ ∃ s ∈ ss, name ∈ s.closing :: s.underway := by
  induction h with
  | finished => exact nofun
  | @closed s ss underway names ok hunderway _ ih =>
    intro name hname
    rcases List.mem_append.1 hname with hname | hname
    · exact .inr ⟨s, List.mem_cons_self, List.mem_cons_of_mem _ (hunderway name hname)⟩
    · rcases List.mem_cons.1 hname with rfl | hname
      · exact .inr ⟨s, List.mem_cons_self, List.mem_cons_self⟩
      · refine (ih name hname).imp_right ?_
        rintro ⟨t, ht, hname⟩
        exact ⟨t, List.mem_cons_of_mem s ht, hname⟩
  | @failed s ss underway hunderway =>
    intro name hname
    rcases List.mem_append.1 hname with hname | hname
    · exact .inr ⟨s, List.mem_cons_self, List.mem_cons_of_mem _ (hunderway name hname)⟩
    · exact .inl (List.mem_singleton.1 hname)

end Stage

namespace Traced

variable {α β : Type}

/-- The events of a result are those of stages, all of them closed if there is one. -/
def Passes (t : Traced α) (ss : List Stage) : Prop :=
  Stage.Passes ss (t.events.map Event.name) t.result.isOk

theorem Passes.andThen {t : Traced α} {next : α → Traced β} {ss ts : List Stage}
    (h : t.Passes ss) (hnext : ∀ a, t.result = .ok a → (next a).Passes ts) :
    (t.andThen next).Passes (ss ++ ts) := by
  unfold Traced.andThen Passes at *
  cases hresult : t.result with
  | error ds =>
    rw [hresult] at h
    exact h.append_of_failed rfl ts
  | ok a =>
    rw [hresult] at h
    show Stage.Passes _ ((t.events ++ (next a).events).map _) _
    rw [List.map_append]
    exact h.append rfl (hnext a hresult)

/-- The diagnostics of a result, none if it is a success. -/
def diagnostics (t : Traced α) : List Diagnostic :=
  match t.result with
  | .ok _ => []
  | .error ds => ds

/-- The failures among the events are the diagnostics of the result, one event for each. -/
def Blames (t : Traced α) : Prop :=
  named Event.compileError t.events = t.diagnostics.map .ofDiagnostic

theorem Blames.andThen {t : Traced α} {next : α → Traced β} (h : t.Blames)
    (hnext : ∀ a, (next a).Blames) : (t.andThen next).Blames := by
  unfold Traced.andThen Blames diagnostics at *
  cases hresult : t.result with
  | error ds =>
    rw [hresult] at h
    exact h
  | ok a =>
    rw [hresult] at h
    show named _ (t.events ++ (next a).events) = _
    rw [named_append, h]
    exact hnext a

/-- Events before a stage that are no failures blame nobody. -/
theorem Blames.after {t : Traced α} (h : t.Blames) {events : List Event}
    (hevents : ∀ e ∈ events, e.name ≠ Event.compileError) : (t.after events).Blames := by
  unfold Traced.after Blames at *
  have hnone : named Event.compileError events = [] :=
    List.filter_eq_nil_iff.2 fun e he => by simpa using hevents e he
  rw [named_append, hnone]
  exact h

theorem blames_success {closing : Event} (h : closing.name ≠ Event.compileError) (a : α) :
    (success closing a).Blames := Event.named_cons_of_ne h []

theorem blames_failure (d : Diagnostic) : (failure d : Traced α).Blames := by
  show named Event.compileError [Event.ofDiagnostic d] = [Event.ofDiagnostic d]
  exact Event.named_cons_of_eq (e := Event.ofDiagnostic d) rfl []

end Traced

namespace Plan

open Stage (layering ordering stratum solving)

/-! ## The events of each stage -/

theorem ingestStage_blames (file : String) (mode : Mode) (ls : List SourceLine) :
    (ingestStage file mode ls).Blames := by
  have hnamed := Event.named_compileError_verdicts (Ingestion.ofLines file mode ls).verdicts
  unfold ingestStage Traced.Blames Traced.diagnostics
  dsimp only
  rw [Ingestion.verdicts_eq] at hnamed ⊢
  cases hresult : (Ingestion.ofLines file mode ls).result with
  | error ds =>
    rw [(Ingestion.result_eq_error_iff.1 hresult).2] at hnamed
    exact hnamed
  | ok p =>
    rw [(Ingestion.result_eq_ok_iff.1 hresult).1] at hnamed
    show named _ (_ ++ [Event.ofProgram p]) = []
    rw [named_append, hnamed]
    exact Event.named_cons_of_ne (e := Event.ofProgram p)
      (show Event.ingestCompleted ≠ Event.compileError by decide) []

theorem layerStage_passes (p : Program) : (layerStage p).Passes [layering] := by
  have hmoves : ∀ name ∈ ((Layering.ofProgram p).moves.map Event.ofMove).map Event.name,
      name ∈ layering.underway := by
    rw [List.map_map]
    rintro name hname
    obtain ⟨move, -, rfl⟩ := List.mem_map.1 hname
    exact List.mem_cons_self
  unfold layerStage Traced.after Traced.Passes
  dsimp only
  rw [List.map_append]
  cases (Layering.ofProgram p).result with
  | error fault => exact .failed hmoves
  | ok found => exact .closed hmoves .finished

theorem layerStage_blames (p : Program) : (layerStage p).Blames := by
  unfold layerStage
  refine Traced.Blames.after ?_ ?_
  · cases (Layering.ofProgram p).result with
    | error fault => exact Traced.blames_failure _
    | ok found => exact Traced.blames_success (show Event.stratifyCompleted ≠ _ by decide) _
  · intro e he
    obtain ⟨move, -, rfl⟩ := List.mem_map.1 he
    show Event.relocated ≠ _
    decide

theorem orderStage_passes (p : Program) : (orderStage p).Passes [ordering] := .alone ordering

theorem orderStage_blames (p : Program) : (orderStage p).Blames :=
  Traced.blames_success (show Event.orderComputed ≠ _ by decide) _

section Strata

variable (p : Program) (order : EvalOrder)

theorem name_ofNotice (notice : ViewNotice) :
    (Event.ofNotice notice).name ∈ stratum.underway := by
  cases notice with
  | minted v => exact List.mem_cons_self
  | renamed plain chosen view => exact List.mem_cons_of_mem _ List.mem_cons_self

theorem strataStage_passes (strata : List Stratum) (registry : ViewRegistry) :
    (strataStage p order registry strata).Passes (List.replicate strata.length stratum) := by
  induction strata generalizing registry with
  | nil => exact .finished
  | cons s strata ih =>
    have hnotices : ∀ name ∈
        ((StratumPlan.ofStratum p order registry s).notices.map Event.ofNotice).map Event.name,
        name ∈ stratum.underway := by
      rw [List.map_map]
      rintro name hname
      obtain ⟨notice, -, rfl⟩ := List.mem_map.1 hname
      exact name_ofNotice notice
    unfold strataStage Traced.after Traced.Passes
    dsimp only
    rw [List.map_append]
    cases (StratumPlan.ofStratum p order registry s).result with
    | error d => exact .failed hnotices
    | ok plan =>
      refine .closed hnotices ?_
      have hrest : ((strataStage p order (StratumPlan.ofStratum p order registry s).registry
          strata).andThen fun more => ⟨[], .ok (plan :: more)⟩).Passes
            (List.replicate strata.length stratum ++ []) := (ih _).andThen fun _ _ => .finished
      rw [List.append_nil] at hrest
      exact hrest

theorem strataStage_blames (strata : List Stratum) (registry : ViewRegistry) :
    (strataStage p order registry strata).Blames := by
  induction strata generalizing registry with
  | nil => rfl
  | cons s strata ih =>
    unfold strataStage
    refine Traced.Blames.after ?_ ?_
    · cases (StratumPlan.ofStratum p order registry s).result with
      | error d => exact Traced.blames_failure d
      | ok plan =>
        refine (Traced.blames_success (show Event.stratumCompiled ≠ _ by decide) ()).andThen ?_
        exact fun _ => (ih _).andThen fun _ => rfl
    · intro e he
      obtain ⟨notice, -, rfl⟩ := List.mem_map.1 he
      intro hname
      have hmem := name_ofNotice notice
      rw [hname] at hmem
      exact absurd hmem (by decide)

end Strata

theorem solutionStage_passes (p : Program) (plans : List StratumPlan) (outputs : List String) :
    (solutionStage p plans outputs).Passes [solving] := by
  unfold solutionStage
  cases Solution.ofPlans p plans outputs with
  | error fault => exact .alone_failed solving
  | ok solution => exact .alone solving

theorem solutionStage_blames (p : Program) (plans : List StratumPlan) (outputs : List String) :
    (solutionStage p plans outputs).Blames := by
  unfold solutionStage
  cases Solution.ofPlans p plans outputs with
  | error fault => exact Traced.blames_failure _
  | ok solution => exact Traced.blames_success (show Event.solutionComputed ≠ _ by decide) _

/-! ## The stages together -/

/-- What is done once the rules are read. -/
def planning (r : Request) (p : Program) : Traced Plan :=
  (layerStage p).andThen fun strata =>
  (orderStage p).andThen fun order =>
  (strataStage p order .empty strata).andThen fun plans =>
  (solutionStage p plans (Solution.outputs r.outputs)).andThen fun solution =>
    ⟨[], .ok { file := r.file, key := r.key, program := p, strata := plans, order, solution,
               output := Solution.outputs r.outputs }⟩

/-- The number of strata of a program, none if it has no layers. -/
def strataCount (p : Program) : Nat :=
  match (Layering.ofProgram p).result with
  | .ok (strata, _) => strata.length
  | .error _ => 0

theorem planning_passes (r : Request) (p : Program) :
    (planning r p).Passes (Stage.all (strataCount p)) := by
  refine (layerStage_passes p).andThen fun strata hstrata => ?_
  obtain ⟨passes, hlayering⟩ := layerStage_eq_ok_iff.1 hstrata
  have hcount : strataCount p = strata.length := by
    unfold strataCount
    rw [hlayering]
  rw [hcount]
  refine (orderStage_passes p).andThen fun order _ => ?_
  refine (strataStage_passes p order strata .empty).andThen fun plans _ => ?_
  show Traced.Passes _ ([solving] ++ [])
  exact (solutionStage_passes p plans _).andThen fun _ _ => .finished

theorem stages_blames (r : Request) (ls : List SourceLine) : (stages r ls).Blames := by
  refine (ingestStage_blames r.file r.mode ls).andThen fun p => ?_
  refine (layerStage_blames p).andThen fun strata => ?_
  refine (orderStage_blames p).andThen fun order => ?_
  refine (strataStage_blames p order strata .empty).andThen fun plans => ?_
  exact (solutionStage_blames p plans _).andThen fun _ => rfl

/-! ## What the events count -/

/-- Only the events of strata come up while strata are compiled, and no failure if they compile. -/
theorem named_strataStage_eq_nil {p : Program} {order : EvalOrder} {registry : ViewRegistry}
    {strata : List Stratum} {name : String} (hfailure : name ≠ Event.compileError)
    (hstratum : name ∉ stratum.closing :: stratum.underway) :
    named name (strataStage p order registry strata).events = [] := by
  refine List.filter_eq_nil_iff.2 fun e he hname => ?_
  obtain rfl := eq_of_beq hname
  rcases (strataStage_passes p order strata registry).mem e.name (List.mem_map.2 ⟨e, he, rfl⟩) with
    hname | ⟨s, hs, hname⟩
  · exact hfailure hname
  · rw [List.eq_of_mem_replicate hs] at hname
    exact hstratum hname

/-- Each stratum is closed once. -/
theorem named_stratumCompiled {p : Program} {order : EvalOrder} {strata : List Stratum}
    {registry : ViewRegistry} {plans : List StratumPlan}
    (h : (strataStage p order registry strata).result = .ok plans) :
    named Event.stratumCompiled (strataStage p order registry strata).events
      = plans.map .ofStratumPlan := by
  obtain ⟨final, hrun⟩ := strataStage_eq_ok_iff.1 h
  clear h
  induction hrun with
  | nil registry => rfl
  | @cons registry final s strata plan plans hplan _ ih =>
    have hnotices : named Event.stratumCompiled
        ((StratumPlan.ofStratum p order registry s).notices.map .ofNotice) = [] := by
      refine List.filter_eq_nil_iff.2 fun e he hname => ?_
      obtain ⟨notice, -, rfl⟩ := List.mem_map.1 he
      have hmem := name_ofNotice notice
      rw [eq_of_beq hname] at hmem
      exact absurd hmem (by decide)
    have hname : (Event.ofStratumPlan plan).name = Event.stratumCompiled := rfl
    rw [events_strataStage_cons hplan, named_append, hnotices, Event.named_cons_of_eq hname, ih]
    rfl

/-- What the events of a compilation say about the plan that it ends with: how many rules, strata
and views it has, and, replayed from level zero, which of its strata a rule is in. -/
structure AccountedBy (plan : Plan) (events : List Event) : Prop where
  rules : (named Event.ruleAccepted events).length = plan.program.rules.length
  strata : (named Event.stratumCompiled events).length = plan.strata.length
  views : (named Event.viewMinted events).length = plan.viewCount
  levels : ∃ level, Event.replay (fun _ => 0) (named Event.relocated events) = some level
    ∧ ∀ (i j : Nat) (s t : StratumPlan), plan.strata[i]? = some s → plan.strata[j]? = some t →
      ∀ q ∈ s.rules, ∀ q' ∈ t.rules, level q.line < level q'.line ↔ i < j

section Planned

variable {r : Request} {p : Program} {strata : List Stratum} {passes : Nat}
  {plans : List StratumPlan}

/-- The events of planning that ends with a plan, stage by stage. -/
theorem events_planning (hlayering : (Layering.ofProgram p).result = .ok (strata, passes))
    (hplans : (strataStage p (orderOf p) .empty strata).result = .ok plans)
    (hknown : Solution.unknownOutput? p (Solution.outputs r.outputs) = none) :
    ∃ solution, (planning r p).events
      = (Layering.ofProgram p).moves.map .ofMove ++ .ofStrata strata passes ::
        .ofOrder (orderOf p) :: ((strataStage p (orderOf p) .empty strata).events
          ++ [.ofSolution solution]) := by
  have hlayer : layerStage p = ⟨(Layering.ofProgram p).moves.map .ofMove
      ++ [.ofStrata strata passes], .ok strata⟩ := by
    unfold layerStage
    dsimp only
    rw [hlayering]
    rfl
  have horder : orderStage p = ⟨[.ofOrder (orderOf p)], .ok (orderOf p)⟩ := rfl
  obtain ⟨solution, hsolution⟩ : ∃ solution,
      solutionStage p plans (Solution.outputs r.outputs)
        = .success (.ofSolution solution) solution := by
    unfold solutionStage Solution.ofPlans
    rw [hknown]
    exact ⟨_, rfl⟩
  refine ⟨solution, ?_⟩
  unfold planning
  rw [hlayer, Traced.events_andThen_of_ok rfl, horder, Traced.events_andThen_of_ok rfl,
    Traced.events_andThen_of_ok hplans, hsolution, Traced.events_andThen_silent,
    List.append_assoc]
  rfl

/-- The members of the strata of a plan are those of the strata of its program. -/
theorem exists_stratum_of_plan (hp : p.Accepted)
    (hplans : (strataStage p (orderOf p) .empty strata).result = .ok plans) {i : Nat}
    {s : StratumPlan} (hs : plans[i]? = some s) :
    ∃ t, strata[i]? = some t ∧ s.rules = t.members p := by
  obtain ⟨plans', registry, hplans', -, -, houtlines, -⟩ :=
    strataStage_compiles hp (orderOf p) strata ViewRegistry.tidy_empty
  obtain rfl : plans' = plans := Except.ok.inj (hplans'.symm.trans hplans)
  have houtline := congrArg (·[i]?) houtlines
  rw [List.getElem?_map, List.getElem?_map, hs] at houtline
  obtain ⟨t, ht, heq⟩ := Option.map_eq_some_iff.1 houtline.symm
  exact ⟨t, ht, (congrArg Prod.snd heq).symm⟩

end Planned

/-- The events of a compilation: the opening, what became of the lines, the stages after reading,
and the closing event. -/
theorem events_compile (r : Request) :
    (compile r).events = .starting r.file (SourceLine.ofSource r.source).length ::
      (stages r (SourceLine.ofSource r.source)).events ++
        [match (compile r).result with
          | .ok plan => .succeeding plan
          | .error ds => .failing r.file ds] := rfl

theorem stages_eq (r : Request) (ls : List SourceLine) :
    stages r ls = (ingestStage r.file r.mode ls).andThen (planning r) := rfl

/-- The verdicts on the lines of a request. -/
def verdicts (r : Request) : List Verdict :=
  (Intake.run r.file r.mode .start (SourceLine.ofSource r.source)).2

theorem ingestStage_of_ok {r : Request} {p : Program}
    (h : Program.ofSource r.file r.source r.mode = .ok p) :
    ingestStage r.file r.mode (SourceLine.ofSource r.source)
      = ⟨(verdicts r).map .ofVerdict ++ [.ofProgram p], .ok p⟩ := by
  have hresult :
      (Ingestion.ofLines r.file r.mode (SourceLine.ofSource r.source)).result = .ok p := h
  unfold ingestStage verdicts
  dsimp only
  rw [hresult, Ingestion.verdicts_eq]
  rfl

theorem ingestStage_of_error {r : Request} {ds : List Diagnostic}
    (h : Program.ofSource r.file r.source r.mode = .error ds) :
    ingestStage r.file r.mode (SourceLine.ofSource r.source)
      = ⟨(verdicts r).map .ofVerdict, .error ds⟩ := by
  have hresult :
      (Ingestion.ofLines r.file r.mode (SourceLine.ofSource r.source)).result = .error ds := h
  unfold ingestStage verdicts
  dsimp only
  rw [hresult, Ingestion.verdicts_eq]

/-- The events under a name that is sent in no other place come from the lines, from the moves, or
from the strata. -/
theorem named_compile {r : Request} {plan : Plan} {p : Program} {strata : List Stratum}
    {passes : Nat} {plans : List StratumPlan} (h : (compile r).result = .ok plan)
    (hsource : Program.ofSource r.file r.source r.mode = .ok p)
    (hlayering : (Layering.ofProgram p).result = .ok (strata, passes))
    (hplans : (strataStage p (orderOf p) .empty strata).result = .ok plans)
    (hknown : Solution.unknownOutput? p (Solution.outputs r.outputs) = none) {name : String}
    (hname : name ∉ [Event.compileInvoked, Event.ingestCompleted, Event.stratifyCompleted,
      Event.orderComputed, Event.solutionComputed, Event.compileCompleted]) :
    named name (compile r).events = named name ((verdicts r).map .ofVerdict)
      ++ (named name ((Layering.ofProgram p).moves.map .ofMove)
        ++ named name (strataStage p (orderOf p) .empty strata).events) := by
  obtain ⟨solution, hplanning⟩ := events_planning (r := r) hlayering hplans hknown
  simp only [List.mem_cons, List.not_mem_nil, or_false, not_or] at hname
  obtain ⟨h₁, h₂, h₃, h₄, h₅, h₆⟩ := hname
  have skip : ∀ {e : Event} (events : List Event), name ≠ e.name →
      named name (e :: events) = named name events :=
    fun events hne => Event.named_cons_of_ne hne.symm events
  have hsucceeding : named name [Event.succeeding plan] = [] := skip [] h₆
  have hsolution : named name [Event.ofSolution solution] = [] := skip [] h₅
  have hprogram : named name [Event.ofProgram p] = [] := skip [] h₂
  rw [events_compile, h, named_append, hsucceeding, List.append_nil, skip _ h₁, stages_eq,
    ingestStage_of_ok hsource, Traced.events_andThen_of_ok rfl, hplanning, named_append,
    named_append, hprogram, List.append_nil, named_append, skip _ h₃, skip _ h₄, named_append,
    hsolution, List.append_nil]

theorem accountedBy_compile {r : Request} {plan : Plan} (h : (compile r).result = .ok plan) :
    plan.AccountedBy (compile r).events := by
  obtain ⟨p, strata, passes, plans, hsource, hlayering, hplans, hknown, hplan⟩ :=
    compile_eq_ok_iff.1 h
  have hacc := Program.accepted_of_ofSource hsource
  have hnamed := fun name => @named_compile r plan p strata passes plans h hsource hlayering hplans
    hknown name
  obtain ⟨hnone, hprogram⟩ := Ingestion.result_eq_ok_iff.1
    (show (Ingestion.ofLines r.file r.mode (SourceLine.ofSource r.source)).result = _ from hsource)
  have hverdicts : ∀ e ∈ (verdicts r).map Event.ofVerdict, e.name = Event.ruleAccepted :=
    Event.name_of_verdicts hnone
  have hmoves : ∀ e ∈ (Layering.ofProgram p).moves.map Event.ofMove, e.name = Event.relocated := by
    intro e he
    obtain ⟨move, -, rfl⟩ := List.mem_map.1 he
    rfl
  subst hplan
  refine ⟨?_, ?_, ?_, ?_⟩
  · rw [hnamed Event.ruleAccepted (by decide), Event.named_eq_nil hmoves (by decide),
      named_strataStage_eq_nil (by decide) (by decide), List.append_nil, List.append_nil,
      Event.named_ruleAccepted_verdicts, List.length_map]
    have hrules := Intake.rules_run r.file r.mode (SourceLine.ofSource r.source) .start
    rw [← hprogram]
    exact (congrArg List.length hrules).symm
  · rw [hnamed Event.stratumCompiled (by decide), Event.named_eq_nil hverdicts (by decide),
      Event.named_eq_nil hmoves (by decide), named_stratumCompiled hplans, List.nil_append,
      List.nil_append, List.length_map]
  · rw [hnamed Event.viewMinted (by decide), Event.named_eq_nil hverdicts (by decide),
      Event.named_eq_nil hmoves (by decide), List.nil_append, List.nil_append]
    exact (viewCount_eq_length hacc hplans).symm
  · obtain ⟨level, hreplay, hlevel⟩ := Layering.replay_of_ofProgram
      (Program.pairwise_line_of_ofSource hsource) hlayering
    refine ⟨level, ?_, ?_⟩
    · rw [hnamed Event.relocated (by decide), Event.named_eq_nil hverdicts (by decide),
        Event.named_eq_self hmoves, named_strataStage_eq_nil (by decide) (by decide),
        List.nil_append, List.append_nil]
      exact hreplay
    · intro i j s t hs ht q hq q' hq'
      obtain ⟨s', hs', hmembers⟩ := exists_stratum_of_plan hacc hplans hs
      obtain ⟨t', ht', hmembers'⟩ := exists_stratum_of_plan hacc hplans ht
      exact hlevel i j s' t' hs' ht' q (hmembers ▸ hq) q' (hmembers' ▸ hq')

theorem blames_compile (r : Request) : (compile r).Blames := by
  have hstages := stages_blames r (SourceLine.ofSource r.source)
  unfold Traced.Blames
  rw [events_compile, named_append,
    Event.named_cons_of_ne (show Event.compileInvoked ≠ Event.compileError by decide), hstages]
  have hclosing : Event.compileCompleted ≠ Event.compileError := by decide
  cases h : (compile r).result with
  | error ds => rw [Event.named_cons_of_ne hclosing]; exact List.append_nil _
  | ok plan => rw [Event.named_cons_of_ne hclosing]; exact List.append_nil _

/-- **The trace is faithful.** A compilation opens with one event. What became of the lines follows,
one event for each in order, up to the first refusal in fail-fast mode. If a line was refused only
the closing event is left. Otherwise the completion of reading is next, and then the stages: each
closed by its event, or the first that fails by a failure, after which only the closing event is
left. That one says whether there is a plan. If there is, the events count its rules, strata and
views, and its relocations lead from level zero to the order of its strata. If there is none, the
failures are the diagnostics, one event for each. -/
theorem compile_trace (r : Request) :
    ∃ opening reading later closing,
      (compile r).events = opening :: (reading ++ (later ++ [closing]))
        ∧ opening.name = Event.compileInvoked
        ∧ Intake.Reports r.file r.mode (SourceLine.ofSource r.source) reading
        ∧ (match Program.ofSource r.file r.source r.mode with
          | .error _ => (∃ e ∈ reading, e.name = Event.compileError) ∧ later = []
          | .ok p => (∀ e ∈ reading, e.name = Event.ruleAccepted)
            ∧ ∃ names, later.map Event.name = Event.ingestCompleted :: names
              ∧ Stage.Passes (Stage.all (strataCount p)) names (compile r).result.isOk)
        ∧ closing.name = Event.compileCompleted
        ∧ closing.get "success" = .flag (compile r).result.isOk
        ∧ match (compile r).result with
          | .ok plan => plan.AccountedBy (compile r).events
          | .error ds => named Event.compileError (compile r).events = ds.map .ofDiagnostic := by
  have hreports := Intake.run_reports r.file r.mode (SourceLine.ofSource r.source) .start
  have hlast : (match (compile r).result with
      | .ok plan => plan.AccountedBy (compile r).events
      | .error ds => named Event.compileError (compile r).events = ds.map .ofDiagnostic) := by
    have hblames := blames_compile r
    unfold Traced.Blames Traced.diagnostics at hblames
    cases h : (compile r).result with
    | error ds =>
      rw [h] at hblames
      exact hblames
    | ok plan => exact accountedBy_compile h
  let opening : Event := .starting r.file (SourceLine.ofSource r.source).length
  let closing : Event :=
    match (compile r).result with
    | .ok plan => .succeeding plan
    | .error ds => .failing r.file ds
  have hclosing : closing.name = Event.compileCompleted
      ∧ closing.get "success" = .flag (compile r).result.isOk := by
    dsimp only [closing]
    cases (compile r).result <;> exact ⟨rfl, rfl⟩
  cases hsource : Program.ofSource r.file r.source r.mode with
  | error ds =>
    refine ⟨opening, _, [], closing, ?_, rfl, hreports, ⟨?_, rfl⟩, hclosing.1, hclosing.2, hlast⟩
    · rw [events_compile, stages_eq, ingestStage_of_error hsource,
        Traced.events_andThen_of_error rfl]
      rfl
    · obtain ⟨hne, hds⟩ := Ingestion.result_eq_error_iff.1
        (show (Ingestion.ofLines r.file r.mode (SourceLine.ofSource r.source)).result = _
          from hsource)
      obtain ⟨d, hd⟩ := List.exists_mem_of_ne_nil _ hne
      rw [← hds] at hd
      obtain ⟨v, hv, hdiagnostic⟩ := List.mem_filterMap.1 hd
      refine ⟨_, List.mem_map.2 ⟨v, hv, rfl⟩, ?_⟩
      cases v with
      | accepted q => cases hdiagnostic
      | refused d => rfl
  | ok p =>
    have hnone := (Ingestion.result_eq_ok_iff.1
      (show (Ingestion.ofLines r.file r.mode (SourceLine.ofSource r.source)).result = _
        from hsource)).1
    have hresult : (compile r).result = (planning r p).result := by
      show (stages r _).result = _
      rw [stages_eq, ingestStage_of_ok hsource]
      rfl
    refine ⟨opening, _, .ofProgram p :: (planning r p).events, closing, ?_, rfl, hreports,
      ⟨Event.name_of_verdicts hnone, _, rfl, ?_⟩, hclosing.1, hclosing.2, hlast⟩
    · rw [events_compile, stages_eq, ingestStage_of_ok hsource, Traced.events_andThen_of_ok rfl,
        List.append_assoc, List.cons_append, List.append_assoc]
      rfl
    · rw [hresult]
      exact planning_passes r p

end Plan

end RulePlan
