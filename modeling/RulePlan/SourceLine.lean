import RulePlan.Text.Blank

/-!
# RulePlan.SourceLine — the rule lines of a source text

A source holds one rule a line. Lines are trimmed; blank lines and comment lines, which start with
`%`, `#` or `//`, are left out. The others keep their number, counted from one.
-/

namespace RulePlan

/-- A rule line: its number in the source and its trimmed text. -/
structure SourceLine where
  number : Nat
  text : String
deriving DecidableEq, Repr

namespace SourceLine

/-- The pieces of a text between line feeds; there is always at least one. -/
def pieces : List Char → List (List Char)
  | [] => [[]]
  | c :: r =>
    if c = '\n' then [] :: pieces r
    else
      match pieces r with
      | [] => [[c]]
      | p :: ps => (c :: p) :: ps

/-- Whether a trimmed line is a comment. -/
def isComment : List Char → Bool
  | '%' :: _ => true
  | '#' :: _ => true
  | '/' :: '/' :: _ => true
  | _ => false

/-- The rule line that a trimmed piece of the source is, if it is one. -/
def ofPiece? (number : Nat) (piece : List Char) : Option SourceLine :=
  let text := Text.trimRight (Text.trimLeft piece)
  if text.isEmpty || isComment text then none else some ⟨number, String.ofList text⟩

/-- Numbers pieces from `n` on and keeps the rule lines. -/
def numberFrom (n : Nat) : List (List Char) → List SourceLine
  | [] => []
  | p :: ps => (ofPiece? n p).toList ++ numberFrom (n + 1) ps

/-- The rule lines of a source. -/
def ofSource (source : String) : List SourceLine := numberFrom 1 (pieces source.toList)

end SourceLine

end RulePlan
