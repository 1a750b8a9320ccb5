import RulePlan.Program.Check
import RulePlan.Rule.Parser
import RulePlan.SourceLine

/-!
# RulePlan.Program.Ingest — from rule lines to a program

Lines are read in order. Each is accepted as a rule or refused with a diagnostic; a refused line
leaves nothing behind but the names it interned. In fail-fast mode the first refusal ends the
reading, in accumulating mode all lines are read; either way a program comes out only if no line
was refused.
-/

namespace RulePlan

/-- How refused rules are reported: the first alone, or all together. -/
inductive Mode where
  | failFast
  | accumulate
deriving DecidableEq, Repr

/-- The name of a mode. -/
def Mode.label : Mode → String
  | .failFast => "fail-fast"
  | .accumulate => "accumulate"

/-- What becomes of a line. -/
inductive Verdict where
  | accepted (rule : Rule)
  | refused (diagnostic : Diagnostic)
deriving DecidableEq, Repr

/-- The diagnostic of a refused line. -/
def Verdict.diagnostic? : Verdict → Option Diagnostic
  | .accepted _ => none
  | .refused d => some d

/-- The rule of an accepted line. -/
def Verdict.rule? : Verdict → Option Rule
  | .accepted r => some r
  | .refused _ => none

/-- What reading has established so far. -/
structure Intake where
  symbols : SymbolTable
  arities : List ArityEntry
  rules : List Rule

namespace Intake

/-- Nothing yet. -/
def start : Intake := ⟨.empty, [], []⟩

/-- Reads one line. -/
def step (file : String) (s : Intake) (l : SourceLine) : Intake × Verdict :=
  let (parsed, symbols) := Rule.parse s.symbols l.number l.text
  match parsed with
  | .error fault => ({ s with symbols }, .refused (fault.report file l.number))
  | .ok rule =>
    match rule.check s.arities with
    | .error cause => ({ s with symbols }, .refused (cause.report file l.number))
    | .ok fixed => (⟨symbols, s.arities ++ fixed, s.rules ++ [rule]⟩, .accepted rule)

/-- Reads lines in order and records what becomes of each; in fail-fast mode up to the first
refusal. -/
def run (file : String) (mode : Mode) (s : Intake) : List SourceLine → Intake × List Verdict
  | [] => (s, [])
  | l :: ls =>
    match step file s l with
    | (s', .refused d) =>
      match mode with
      | .failFast => (s', [.refused d])
      | .accumulate =>
        let (final, more) := run file mode s' ls
        (final, .refused d :: more)
    | (s', .accepted r) =>
      let (final, more) := run file mode s' ls
      (final, .accepted r :: more)

/-- The program of what was read. -/
def program (file : String) (s : Intake) : Program :=
  .ofRules file s.rules (s.arities.map fun e => (e.predicate, e.arity)) s.symbols

end Intake

/-- The outcome of reading all lines: the verdicts, and the program or the diagnostics. -/
structure Ingestion where
  verdicts : List Verdict
  result : Except (List Diagnostic) Program

/-- Reads rule lines into a program. -/
def Ingestion.ofLines (file : String) (mode : Mode) (lines : List SourceLine) : Ingestion :=
  let (final, verdicts) := Intake.run file mode .start lines
  match verdicts.filterMap Verdict.diagnostic? with
  | [] => ⟨verdicts, .ok (final.program file)⟩
  | diagnostics => ⟨verdicts, .error diagnostics⟩

/-- Reads a source text into a program, or into the diagnostics of its refused lines. Like its lines
the source is in valid UTF-8. -/
def Program.ofSource (file source : String) (mode : Mode) : Except (List Diagnostic) Program :=
  (Ingestion.ofLines file mode (SourceLine.ofSource source)).result

end RulePlan
