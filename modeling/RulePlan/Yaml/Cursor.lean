import RulePlan.Yaml.CharClass
import RulePlan.Yaml.Fault

/-!
# RulePlan.Yaml.Cursor — a place in structured text

Structure is given by lines and columns, so the place in a text is kept with both. It also knows how
many lines have ended since the last character other than a blank, and how long the whole text is:
no reading takes more steps than that.
-/

namespace RulePlan.Yaml

/-- A place in a text of a size, and the characters from there on. -/
structure Cursor where
  rest : List Char
  size : Nat
  index : Nat := 0
  line : Nat := 0
  column : Nat := 0
  newlines : Nat := 0
deriving Repr, Inhabited

namespace Cursor

/-- The character a number of places ahead. -/
def char (c : Cursor) (ahead : Nat) : Char := c.rest.getD ahead endMark

/-- The next character. -/
def head (c : Cursor) : Char := c.rest.headD endMark

/-- Whether the text ends here. -/
def isEnd (c : Cursor) : Bool := c.rest.isEmpty

/-- The place after the next character of the line. -/
def skip (c : Cursor) : Cursor :=
  match c.rest with
  | [] => c
  | d :: rest =>
    { c with
      rest
      index := c.index + 1
      column := c.column + 1
      newlines := if isBlank d then c.newlines else 0 }

/-- The place after a number of characters of the line. -/
def skips : (n : Nat) → Cursor → Cursor
  | 0, c => c
  | n + 1, c => skips n c.skip

/-- Passes a line end of a number of characters. -/
def endLine (c : Cursor) (size : Nat) (rest : List Char) : Cursor :=
  { c with
    rest
    index := c.index + size
    line := c.line + 1
    column := 0
    newlines := c.newlines + 1 }

/-- Reads a line break: a carriage return, a line feed, both in this order, or the next-line
character count as a line feed, and the other separators as themselves. -/
def takeBreak (c : Cursor) : List Char × Cursor :=
  match c.rest with
  | '\r' :: '\n' :: rest => (['\n'], c.endLine 2 rest)
  | d :: rest =>
    if !isBreak d then ([], c)
    else if d.toNat == 0x2028 || d.toNat == 0x2029 then ([d], c.endLine 1 rest)
    else (['\n'], c.endLine 1 rest)
  | [] => ([], c)

/-- Passes a line break. -/
def skipBreak (c : Cursor) : Cursor := c.takeBreak.2

/-- Passes characters of a kind; the kind must not hold of line breaks. -/
def skipWhile (test : Char → Bool) (c : Cursor) : Cursor :=
  skips (c.rest.takeWhile test).length c

/-- Reads characters of a kind; the kind must not hold of line breaks. -/
def takeWhile (test : Char → Bool) (c : Cursor) : List Char × Cursor :=
  let run := c.rest.takeWhile test
  (run, skips run.length c)

/-- Three dashes or points that stand alone at the start of a line. -/
def startsDocument (c : Cursor) (sign : Char) : Bool :=
  c.column == 0 && c.char 0 == sign && c.char 1 == sign && c.char 2 == sign && isGap (c.char 3)

/-- The start or the end of a document. -/
def atDocument (c : Cursor) : Bool := c.startsDocument '-' || c.startsDocument '.'

/-- A fault of a construct that starts on a line. -/
def fault (c : Cursor) (start : Nat) (problem : Problem) : Fault := .inText problem start c.line

end Cursor

end RulePlan.Yaml
