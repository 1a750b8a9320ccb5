import RulePlan.Expression.Reader
import RulePlan.Token

/-!
# RulePlan.Expression — expressions as rules hold them

A rule keeps an expression as its normalised text, the tokens it is made of, each flagged if it
names a variable, and the variables in order of first appearance. `spell` writes tokens with single
spaces, but none after an opening parenthesis, before a closing one or a comma, or between a name
and its opening parenthesis.
-/

namespace RulePlan

/-- A token of an expression: its spelling, and whether it names a variable of the rule. -/
structure Expression.Piece where
  text : String
  isVariable : Bool
deriving DecidableEq, Repr

/-- An arithmetic or comparison expression of a rule. -/
structure Expression where
  source : String
  pieces : List Expression.Piece
  vars : List String
deriving DecidableEq, Repr

namespace Expression

/-- Whether two neighbouring tokens are written without a space between them. -/
def tight (before after : Token) : Bool :=
  before.kind == .leftParen || after.kind == .rightParen || after.kind == .comma
    || (after.kind == .leftParen && before.kind == .ident)

/-- The text of tokens that follow a given one. -/
def spellAfter (before : Token) : List Token → String
  | [] => ""
  | t :: ts => (if tight before t then "" else " ") ++ t.text ++ spellAfter t ts

/-- Tokens as normalised text. -/
def spell : List Token → String
  | [] => ""
  | t :: ts => t.text ++ spellAfter t ts

/-- The first occurrences in a list, in order. -/
def distinct (names : List String) : List String :=
  names.foldl (fun seen n => if n ∈ seen then seen else seen ++ [n]) []

/-- A token of an expression that reads the given variables. -/
def Piece.ofToken (reads : List String) (t : Token) : Piece :=
  ⟨t.text, t.kind == .ident && reads.contains t.value⟩

/-- The expression that a list of tokens spells, if it spells one. -/
def ofTokens? (tokens : List Token) : Option Expression := do
  let source := spell tokens
  let reads ← variablesOf? source
  let pieces := tokens.map (Piece.ofToken reads)
  some ⟨source, pieces, distinct ((pieces.filter Piece.isVariable).map Piece.text)⟩

end Expression

end RulePlan
