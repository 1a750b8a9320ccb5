import RulePlan.Command.Line
import RulePlan.Event.Collector
import RulePlan.Host

/-!
# RulePlan.Command.Outcome — what a run prints, logs and answers

A run has an output text, perhaps some advice beside it, the events of its compilation, entries for
the log, and perhaps a cause of failure. Diagnostics of the source are logged one by one; the run
then fails as reported.
-/

namespace RulePlan.Command

/-- An entry of the log. -/
structure LogEntry where
  level : LogLevel
  message : String
  fields : List (String × Datum)
deriving DecidableEq, Repr

/-- Why a run fails. -/
inductive RunFault where
  | usage (fault : UsageFault)
  | configuration (fault : LoadFault)
  | logLevel (name : String)
  | format (name : String)
  | source (file : String) (fault : PathFault)
  | storeUnavailable (detail : String)
  | noStore
  | artifact (fault : StoreFault)
  | stratum (index : Int) (count : Nat)
  | alreadyThere (path : String)
  | saving (fault : SaveFault)
  | mode (fault : ConfigFault)
  | reported
deriving DecidableEq, Repr

open Text.Decimal in
/-- The wording of each cause; `malformed` describes text that is no configuration. -/
def RunFault.message (malformed : String) : RunFault → String
  | .usage fault => fault.message
  | .configuration fault => fault.message malformed
  | .logLevel name => "invalid log level: unrecognized level: " ++ Text.Quoted.encode name
  | .format name => ArtifactKind.unknownMessage name
  | .source file fault => "failed to read " ++ file ++ ": " ++ fault.message
  | .storeUnavailable detail => "failed to open artifact cache: failed to open badger: " ++ detail
  | .noStore => "no cache directory configured (set cache.dir or --cache)"
  | .artifact fault => fault.message
  | .stratum index count =>
    "stratum " ++ ofInt index ++ " out of range (plan has " ++ ofNat count ++ ")"
  | .alreadyThere path => path ++ " already exists (use --force to overwrite)"
  | .saving fault => fault.message
  | .mode fault => fault.message
  | .reported => "compilation failed"

/-- The outcome of a run; `verbose` says whether its events are to be shown. -/
structure Outcome where
  output : String := ""
  advice : String := ""
  events : List Event := []
  logs : List LogEntry := []
  verbose : Bool := false
  fault : Option RunFault := none

/-- The complaint that ends a failed run, unless its cause is in the log already. -/
def Outcome.complaint? (malformed : String) (o : Outcome) : Option String :=
  match o.fault with
  | none | some .reported => none
  | some fault => some ("Error: " ++ fault.message malformed)

/-- The exit code of a run. -/
def Outcome.exitCode (o : Outcome) : Nat := if o.fault.isSome then 1 else 0

/-- A run that fails without doing anything. -/
def Outcome.failed (fault : RunFault) : Outcome := { fault := some fault }

/-- The log entry of a diagnostic. -/
def LogEntry.ofDiagnostic (d : Diagnostic) : LogEntry :=
  ⟨.error, "compile error", [("file", .text d.file), ("line", .number d.line),
    ("category", .text d.category.label), ("message", .text d.message)]⟩

/-- The outcome of a compilation that found faults in its source. -/
def Outcome.ofDiagnostics (file : String) (events : List Event) (ds : List Diagnostic) : Outcome :=
  { events
    logs := ds.map .ofDiagnostic
      ++ [⟨.debug, "compilation aborted", [("file", .text file), ("errors", .number ds.length)]⟩]
    fault := some .reported }

end RulePlan.Command
