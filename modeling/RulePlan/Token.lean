import RulePlan.Text.Decimal

/-!
# RulePlan.Token — the tokens of a rule line

A token has a kind, the spelling that its kind leaves open (a name, a run of digits, an operator),
and the line and byte column at which it starts. `text` is the source spelling, in which negation
is always written `not`.
-/

namespace RulePlan

/-- What a token is. `unknown` stands for a kind outside the rule language. -/
inductive Token.Kind where
  | eof
  | ident
  | int
  | leftParen
  | rightParen
  | comma
  | implies
  | dot
  | op
  | not
  | unknown
deriving DecidableEq, Repr, Inhabited

/-- A token with its position; lines and columns count from one. -/
structure Token where
  kind : Token.Kind
  value : String
  line : Int
  col : Int
deriving DecidableEq, Repr, Inhabited

namespace Token

/-- The name of a kind in diagnostics, and whether the spelling is shown beside it. -/
def Kind.label : Kind → String × Bool
  | .eof => ("EOF", false)
  | .ident => ("Ident", true)
  | .int => ("Int", true)
  | .leftParen => ("LeftParen", false)
  | .rightParen => ("RightParen", false)
  | .comma => ("Comma", false)
  | .implies => ("Implies", false)
  | .dot => ("Dot", false)
  | .op => ("Op", true)
  | .not => ("Not", false)
  | .unknown => ("Unknown", true)

/-- A position as `line:column`. -/
def position (t : Token) : String :=
  Text.Decimal.ofInt t.line ++ ":" ++ Text.Decimal.ofInt t.col

/-- The token for display: kind, position and, where it is open, spelling. -/
def describe (t : Token) : String :=
  let (name, shown) := t.kind.label
  name ++ "[" ++ t.position ++ "]" ++ (if shown then ":" ++ t.value else "")

/-- The source spelling of the token. -/
def text (t : Token) : String :=
  match t.kind with
  | .leftParen => "("
  | .rightParen => ")"
  | .comma => ","
  | .implies => ":-"
  | .dot => "."
  | .not => "not"
  | _ => t.value

/-- The six comparison operators. -/
def comparisons : List String := ["==", "!=", "<", "<=", ">", ">="]

/-- Whether the token is a comparison operator. -/
def isComparison (t : Token) : Bool := t.kind == .op && comparisons.contains t.value

/-- Whether the token is the operator spelled `s`. -/
def isOp (t : Token) (s : String) : Bool := t.kind == .op && t.value == s

end Token

end RulePlan
