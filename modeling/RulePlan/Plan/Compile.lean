import RulePlan.Event
import RulePlan.Plan

/-!
# RulePlan.Plan.Compile — from a request to a plan, with the events on the way

Compilation reads the rules, layers them, orders the predicates, compiles stratum after stratum and
determines the predicates to keep. `Plan.compile` returns the plan or the diagnostics together with
the events of every stage that ran; the first stage that fails ends the sequence with its failure.
-/

namespace RulePlan

namespace Event

/-- The failure event of a diagnostic. -/
def ofDiagnostic (d : Diagnostic) : Event :=
  { name := compileError
    data := [("file", .text d.file), ("line", .number d.line),
      ("category", .text d.category.label), ("message", .text d.message)] }

/-- What became of a line. -/
def ofVerdict : Verdict → Event
  | .accepted r =>
    { name := ruleAccepted
      data := [("line", .number r.line), ("rule", .text r.render), ("type", .number r.type)] }
  | .refused d => ofDiagnostic d

/-- A program is complete. -/
def ofProgram (p : Program) : Event :=
  { name := ingestCompleted
    data := [("rules.count", .number p.rules.length),
      ("intensional", .texts (Names.sorted p.intensional)),
      ("extensional", .texts (Names.sorted p.extensional)),
      ("negated", .texts (Names.sorted p.negated))] }

/-- A rule moves up. -/
def ofMove (m : Move) : Event :=
  { name := relocated
    data := [("line", .number m.line), ("rule", .text m.rule), ("predicate", .text m.predicate),
      ("negated", .flag m.negated), ("from", .number m.fromLevel), ("to", .number m.toLevel)] }

/-- The strata are found. -/
def ofStrata (strata : List Stratum) (passes : Nat) : Event :=
  { name := stratifyCompleted
    data := [("strata.count", .number strata.length), ("iterations", .number passes)] }

/-- The order is found. -/
def ofOrder (o : EvalOrder) : Event :=
  { name := orderComputed
    data := [("block1", .texts o.seeds), ("block2", .texts o.derived),
      ("block3", .texts o.cyclic)] }

/-- A view or an alias gets its name. -/
def ofNotice : ViewNotice → Event
  | .minted v =>
    { name := viewMinted
      data := [("view", .text v.name), ("predicate", .text v.predicate),
        ("combination", .numbers v.combination), ("bound", .number v.bound)] }
  | .renamed plain chosen view =>
    { name := aliasRenamed
      data := [("alias", .text plain), ("renamed", .text chosen), ("view", .text view)] }

/-- A stratum is compiled. -/
def ofStratumPlan (s : StratumPlan) : Event :=
  { name := stratumCompiled
    data := [("stratum", .number s.index), ("equations.count", .number s.equations.length),
      ("views.count", .number s.views.views.length)] }

/-- The predicates to keep are found. -/
def ofSolution (solution : List (String × List Reason)) : Event :=
  { name := solutionComputed
    data := [("predicates", .texts (solution.map Prod.fst))] }

/-- A compilation starts. -/
def starting (file : String) (lines : Nat) : Event :=
  { name := compileInvoked
    data := [("file", .text file), ("lines.count", .number lines)] }

/-- A compilation ends with a plan. -/
def succeeding (p : Plan) : Event :=
  { name := compileCompleted
    data := [("file", .text p.file), ("success", .flag true),
      ("rules.count", .number p.program.rules.length), ("strata.count", .number p.strata.length),
      ("equations.count", .number p.equationCount), ("views.count", .number p.viewCount)] }

/-- A compilation ends without a plan. -/
def failing (file : String) (ds : List Diagnostic) : Event :=
  { name := compileCompleted
    data := [("file", .text file), ("success", .flag false),
      ("error", .text (renderDiagnostics ds))] }

end Event

/-- A result with the events that led to it. -/
structure Traced (α : Type) where
  events : List Event
  result : Except (List Diagnostic) α

namespace Traced

/-- Goes on with the next stage after a success. -/
def andThen (t : Traced α) (next : α → Traced β) : Traced β :=
  match t.result with
  | .error ds => ⟨t.events, .error ds⟩
  | .ok a =>
    let more := next a
    ⟨t.events ++ more.events, more.result⟩

/-- A stage that succeeds with one closing event. -/
def success (closing : Event) (a : α) : Traced α := ⟨[closing], .ok a⟩

/-- A stage that fails with one diagnostic. -/
def failure (d : Diagnostic) : Traced α := ⟨[.ofDiagnostic d], .error [d]⟩

/-- A stage with events before it. -/
def after (events : List Event) (t : Traced α) : Traced α := { t with events := events ++ t.events }

end Traced

namespace Plan

/-- Reads the rules. -/
def ingestStage (file : String) (mode : Mode) (lines : List SourceLine) : Traced Program :=
  let ingestion := Ingestion.ofLines file mode lines
  match ingestion.result with
  | .error ds => ⟨ingestion.verdicts.map .ofVerdict, .error ds⟩
  | .ok p => (Traced.success (.ofProgram p) p).after (ingestion.verdicts.map .ofVerdict)

/-- Layers the rules. -/
def layerStage (p : Program) : Traced (List Stratum) :=
  let layering := Layering.ofProgram p
  Traced.after (layering.moves.map .ofMove) <|
    match layering.result with
    | .error fault => .failure (fault.report p.file)
    | .ok (strata, passes) => .success (.ofStrata strata passes) strata

/-- Orders the predicates. -/
def orderStage (p : Program) : Traced EvalOrder :=
  let order := EvalOrder.ofGraph p.graph p.intensional p.negated
  .success (.ofOrder order) order

/-- Compiles the strata in order, with one registry of views. -/
def strataStage (p : Program) (order : EvalOrder) (registry : ViewRegistry) :
    List Stratum → Traced (List StratumPlan)
  | [] => ⟨[], .ok []⟩
  | s :: rest =>
    let outcome := StratumPlan.ofStratum p order registry s
    Traced.after (outcome.notices.map .ofNotice) <|
      match outcome.result with
      | .error d => .failure d
      | .ok plan =>
        (Traced.success (.ofStratumPlan plan) ()).andThen fun _ =>
          (strataStage p order outcome.registry rest).andThen fun more => ⟨[], .ok (plan :: more)⟩

/-- Determines the predicates to keep. -/
def solutionStage (p : Program) (strata : List StratumPlan) (outputs : List String) :
    Traced (List (String × List Reason)) :=
  match Solution.ofPlans p strata outputs with
  | .error fault => .failure (fault.report p.file 0)
  | .ok solution => .success (.ofSolution solution) solution

/-- All stages. -/
def stages (r : Request) (lines : List SourceLine) : Traced Plan :=
  (ingestStage r.file r.mode lines).andThen fun program =>
  (layerStage program).andThen fun strata =>
  (orderStage program).andThen fun order =>
  (strataStage program order .empty strata).andThen fun plans =>
  let output := Solution.outputs r.outputs
  (solutionStage program plans output).andThen fun solution =>
    ⟨[], .ok { file := r.file, key := r.key, program, strata := plans, order, solution, output }⟩

/-- Compiles a request. -/
def compile (r : Request) : Traced Plan :=
  let lines := SourceLine.ofSource r.source
  let t := stages r lines
  let closing :=
    match t.result with
    | .ok plan => Event.succeeding plan
    | .error ds => Event.failing r.file ds
  ⟨Event.starting r.file lines.length :: t.events ++ [closing], t.result⟩

end Plan

end RulePlan
