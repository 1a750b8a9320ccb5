import RulePlan.Digest.Sha256
import RulePlan.Program.Ingest
import RulePlan.Solution

/-!
# RulePlan.Plan — the compiled form of a source file

A plan holds the program, its strata with their equations and views, the order of evaluation, the
predicates to keep with the reasons, and the requested outputs. It is identified by the digest of a
text that lists file, source, outputs and mode of the request.
-/

namespace RulePlan

/-- What is to be compiled, and how. -/
structure Request where
  file : String
  source : String
  outputs : List String
  mode : Mode
deriving DecidableEq, Repr

namespace Request

/-- The text that identifies a request. The source is preceded by its length in bytes, the outputs
are listed in order of name. -/
def keyText (r : Request) : String :=
  "FILE:" ++ r.file ++ ";SOURCE:" ++ Text.Decimal.ofNat r.source.utf8ByteSize ++ ":" ++ r.source
    ++ ";OUTPUTS:" ++ String.join ((Names.sorted r.outputs).map (· ++ ";"))
    ++ "MODE:" ++ r.mode.label ++ ";"

/-- The digest that identifies a request. -/
def key (r : Request) : String := Digest.Sha256.hexDigest r.keyText

end Request

/-- The compiled form of a source file. -/
structure Plan where
  file : String
  key : String
  program : Program
  strata : List StratumPlan
  order : EvalOrder
  solution : List (String × List Reason)
  output : List String

namespace Plan

/-- The number of equations in all strata. -/
def equationCount (p : Plan) : Nat :=
  p.strata.foldl (fun n s => n + s.equations.length) 0

/-- The number of distinct views in all strata. -/
def viewCount (p : Plan) : Nat :=
  (Names.ofList (p.strata.flatMap fun s => s.views.views.map View.name)).length

end Plan

/-- Diagnostics as one text. -/
def renderDiagnostics (ds : List Diagnostic) : String := "; ".intercalate (ds.map Diagnostic.render)

/-- The failed compilation of a file as one text. -/
def renderFailure (file : String) (ds : List Diagnostic) : String :=
  "compile " ++ file ++ ": " ++ renderDiagnostics ds

end RulePlan
