import RulePlan.Text.Integer
import RulePlan.Text.Scientific
import RulePlan.Token.Lexer

/-!
# RulePlan.Expression.Numeral — numbers in expression text

A numeral is a whole number, possibly after a mark of its radix, or a decimal with a point or an
exponent. Underscores may stand anywhere after the first digit and mean nothing. `length?` finds
where a numeral ends, without regard to its meaning; `read?` then gives it one or refuses it.
-/

namespace RulePlan.Expression

/-- What a numeral stands for. -/
inductive Numeral where
  | whole (value : Int64)
  | decimal (value : Text.Scientific)
deriving DecidableEq, Repr

namespace Numeral

/-! ## Extent -/

/-- Characters that belong to the digits of a radix. -/
def isDigitOf (radix : Nat) (c : Char) : Bool :=
  c == '_' || (Text.Integer.digit? c).any (· < radix)

/-- The radix of a numeral and its characters after the mark. -/
def radix (cs : List Char) : Nat × List Char := (Text.Integer.marked? cs).getD (10, cs)

/-- How many characters at the start of a text are digits of a radix. -/
def run (radix : Nat) (cs : List Char) : Nat := (cs.takeWhile (isDigitOf radix)).length

/-- The length of the exponent at the start of a text, if one stands there. -/
def exponentLength (radix : Nat) : List Char → Nat
  | [] => 0
  | c :: cs =>
    if c = 'e' ∨ c = 'E' then
      match cs with
      | '+' :: cs => 2 + run radix cs
      | '-' :: cs => 2 + run radix cs
      | cs => 1 + run radix cs
    else 0

/-- The length of the point, the digits after it and the exponent at the start of a text. Two points
are an operator and no part of a numeral. -/
def fractionLength (radix : Nat) : List Char → Nat
  | '.' :: '.' :: _ => 0
  | '.' :: cs => 1 + run radix cs + exponentLength radix (cs.drop (run radix cs))
  | cs => exponentLength radix cs

/-- The length of the numeral at the start of a text. -/
def length (cs : List Char) : Nat :=
  let (r, ds) := radix cs
  (if r = 10 then 0 else 2) + run r ds + fractionLength r (ds.drop (run r ds))

/-- The length of the numeral at the start of a text; `none` if a name clings to it. -/
def length? (cs : List Char) : Option Nat :=
  if (cs.drop (length cs)).head?.any Token.isNamePart then none else some (length cs)

/-! ## Meaning -/

/-- A whole number with a mark of its radix. -/
def marked? (cs : List Char) : Option Numeral :=
  match Text.Integer.read (String.ofList cs) with
  | .ok v => some (.whole (Int64.ofInt v))
  | .error _ => none

/-- The meaning of a numeral without underscores. -/
def ofDigits? (cs : List Char) : Option Numeral :=
  let r := (radix cs).1
  if r = 16 then marked? cs
  else if cs.any fun c => c == '.' || c == 'e' || c == 'E' then
    (Text.Scientific.read? cs).bind fun v => if v.isFinite then some (.decimal v) else none
  else if r ≠ 10 then marked? cs
  else (Text.Decimal.readInt64? false cs).map .whole

/-- The meaning of a numeral. -/
def read? (cs : List Char) : Option Numeral := ofDigits? (cs.filter (· != '_'))

end Numeral

end RulePlan.Expression
