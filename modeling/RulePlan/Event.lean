import RulePlan.Names
import RulePlan.Text.Decimal

/-!
# RulePlan.Event — what a compilation reports while it runs

An event has a name, the time it took, and data: named values of a few simple kinds. Handlers may
send data of any shape, so looking up a value of the wrong kind gives a neutral one.
-/

namespace RulePlan

/-- A value in the data of an event. -/
inductive Datum where
  | null
  | number (value : Int)
  | text (value : String)
  | flag (value : Bool)
  | texts (values : List String)
  | numbers (values : List Int)
deriving DecidableEq, Repr

namespace Datum

/-- A value for display: lists in brackets, separated by spaces. -/
def render : Datum → String
  | .null => "<nil>"
  | .number n => Text.Decimal.ofInt n
  | .text s => s
  | .flag b => if b then "true" else "false"
  | .texts l => "[" ++ " ".intercalate l ++ "]"
  | .numbers l => "[" ++ " ".intercalate (l.map Text.Decimal.ofInt) ++ "]"

/-- The number, or zero. -/
def asNumber : Datum → Int
  | .number n => n
  | _ => 0

/-- The texts, or none. -/
def asTexts : Datum → List String
  | .texts l => l
  | _ => []

/-- The numbers, or none. -/
def asNumbers : Datum → List Int
  | .numbers l => l
  | _ => []

/-- Whether the value is the flag `true`. -/
def isTrue : Datum → Bool
  | .flag b => b
  | _ => false

end Datum

/-- An event; `latency` is in nanoseconds. -/
structure Event where
  name : String
  latency : Int := 0
  data : List (String × Datum)
deriving DecidableEq, Repr

namespace Event

/-- The value of a field; a missing field is null. -/
def get (e : Event) (field : String) : Datum := (e.data.lookup field).getD .null

/-- The field names in order. -/
def fields (e : Event) : List String := Names.sorted (e.data.map Prod.fst)

/-! ## Event names -/

/-- A compilation starts. -/
def compileInvoked : String := "compile/invoked"
/-- A compilation ends. -/
def compileCompleted : String := "compile/completed"
/-- A rule is accepted. -/
def ruleAccepted : String := "ingest/rule.accepted"
/-- All rules are accepted. -/
def ingestCompleted : String := "ingest/completed"
/-- A rule moves to a higher level. -/
def relocated : String := "stratify/relocated"
/-- The strata are found. -/
def stratifyCompleted : String := "stratify/completed"
/-- The evaluation order is found. -/
def orderComputed : String := "order/computed"
/-- A view gets its name. -/
def viewMinted : String := "equations/view.minted"
/-- An alias had to be changed. -/
def aliasRenamed : String := "equations/alias.renamed"
/-- A stratum is compiled. -/
def stratumCompiled : String := "equations/stratum.compiled"
/-- The predicates to keep are found. -/
def solutionComputed : String := "equations/solution.computed"
/-- A plan is taken from the cache. -/
def cacheHit : String := "cache/hit"
/-- A plan is not in the cache. -/
def cacheMiss : String := "cache/miss"
/-- A failure. -/
def compileError : String := "error/compile"

end Event

end RulePlan
