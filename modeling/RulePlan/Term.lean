import RulePlan.Rule

/-!
# RulePlan.Term — arguments as an equation sees them

An equation runs over the tuples of its driving predicate. A term is a column of that tuple, a
constant, or a variable that the tuple does not bind.
-/

namespace RulePlan

/-- A column of the driving tuple, or an argument that is no such column. -/
inductive Term where
  | column (position : Int)
  | argument (arg : Argument)
deriving DecidableEq, Repr

namespace Term

/-- Whether the term is a column. -/
def isColumn : Term → Bool
  | .column _ => true
  | .argument _ => false

/-- Whether the term is a constant. -/
def isConstant : Term → Bool
  | .argument (.const _) => true
  | _ => false

/-- Whether the term is a variable that the driving tuple does not bind. -/
def isFree : Term → Bool
  | .argument (.var _) => true
  | _ => false

/-- Columns are written `$n`. -/
def render : Term → String
  | .column i => "$" ++ Text.Decimal.ofInt i
  | .argument a => a.render

/-- Terms in parentheses. -/
def renderAll (terms : List Term) : String := "(" ++ ", ".intercalate (terms.map render) ++ ")"

end Term

end RulePlan
