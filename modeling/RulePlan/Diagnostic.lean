import RulePlan.Text.Decimal

/-!
# RulePlan.Diagnostic — failures tied to a place in the source

A diagnostic names the file, the line (zero or less where no single rule is to blame), a category
and a message. A diagnostic that carries nothing but a category stands for the whole category:
`Diagnostic.isInstanceOf` compares by category against it and by all fields otherwise.
-/

namespace RulePlan

/-- Kinds of failure. `unnamed` keeps a number outside the list. -/
inductive Category where
  | parse
  | safety
  | redefinition
  | structural
  | consistency
  | cycle
  | unnamed (code : UInt8)
deriving DecidableEq, Repr

namespace Category

/-- The category with a given number; the named ones count from one. -/
def ofCode : UInt8 → Category
  | 1 => .parse
  | 2 => .safety
  | 3 => .redefinition
  | 4 => .structural
  | 5 => .consistency
  | 6 => .cycle
  | n => .unnamed n

/-- The name of a category in messages. -/
def label : Category → String
  | .parse => "ParseError"
  | .safety => "SafetyError"
  | .redefinition => "RedefinitionError"
  | .structural => "StructureError"
  | .consistency => "ConsistencyError"
  | .cycle => "CycleError"
  | .unnamed n => "ErrorCategory(" ++ Text.Decimal.ofNat n.toNat ++ ")"

/-- The named categories. -/
def named : List Category := [.parse, .safety, .redefinition, .structural, .consistency, .cycle]

end Category

/-- A failure with its place. -/
structure Diagnostic where
  file : String
  line : Int
  category : Category
  message : String
deriving DecidableEq, Repr

namespace Diagnostic

/-- Where the failure is: the file, or `<input>` without one, and the line if it is positive. -/
def place (d : Diagnostic) : String :=
  let file := if d.file = "" then "<input>" else d.file
  if 0 < d.line then file ++ ":" ++ Text.Decimal.ofInt d.line else file

/-- The whole text of a diagnostic. -/
def render (d : Diagnostic) : String := d.place ++ ": " ++ d.category.label ++ ": " ++ d.message

/-- The diagnostic that stands for all of a category. -/
def ofCategory (c : Category) : Diagnostic := ⟨"", 0, c, ""⟩

/-- Whether a diagnostic carries nothing but its category. -/
def isBare (d : Diagnostic) : Bool := d.message == "" && d.line == 0 && d.file == ""

/-- Whether `d` is an instance of `target`: of its category if `target` is bare, else equal. -/
def isInstanceOf (d target : Diagnostic) : Bool :=
  if target.isBare then target.category == d.category else target == d

end Diagnostic

end RulePlan
