import RulePlan.Yaml.Cursor

/-!
# RulePlan.Yaml.Token.Comment — what stands between tokens

Between tokens there may be blanks, line breaks and comments. A tab is a blank except where
indentation is measured, that is where a key may start outside of brackets. After a comment, further
comment lines follow at any indentation, tabs included, if they are near.
-/

namespace RulePlan.Yaml.Cursor

/-- How far ahead of a place comments are looked for. -/
def commentWindow : Nat := 512

/-- Passes the rest of a line. -/
def skipLine (c : Cursor) : Cursor := c.skipWhile (!endsLine ·)

/-- Passes a number of characters, line breaks among them. -/
def pass : (n : Nat) → Cursor → Cursor
  | 0, c => c
  | n + 1, c =>
    match c.rest with
    | '\r' :: '\n' :: _ => pass (n - 1) c.skipBreak
    | d :: _ => pass n (if isBreak d then c.skipBreak else c.skip)
    | [] => c

/-- Passes a comment to the end of its line, with the comment lines after it. -/
def skipComments : (fuel : Nat) → Cursor → Cursor
  | 0, c => c
  | fuel + 1, c =>
    let c := c.skipLine
    let isSpace (d : Char) : Bool := d == '\n' || d == '\r' || isBlank d
    let gap := ((c.rest.drop 1).takeWhile isSpace).length + 1
    if (c.head == '\n' || c.head == '\r') && gap < commentWindow && c.char gap == '#' then
      skipComments fuel (c.pass gap)
    else c

/-- Passes a comment on the line of a token. -/
def skipTrailingComment (c : Cursor) : Cursor :=
  let blanks := (c.rest.takeWhile isBlank).length
  if c.newlines == 0 && blanks < commentWindow && c.char blanks == '#' then
    (c.skips blanks).skipLine
  else c

/-- Passes what stands before the next token. With it comes whether a key may start there: outside
of brackets it may after a line break. If `marked` is set, a byte order mark opens the text and
every line loses its first character. -/
def skipToToken (marked inBrackets : Bool) :
    (fuel : Nat) → (keyAllowed : Bool) → Cursor → Bool × Cursor
  | 0, keyAllowed, c => (keyAllowed, c)
  | fuel + 1, keyAllowed, c =>
    let c := if marked && c.column == 0 then c.skip else c
    let c := c.skipWhile fun d => d == ' ' || ((inBrackets || !keyAllowed) && d == '\t')
    let c := if c.head == '#' then c.skipComments (c.size + 1) else c
    if isBreak c.head then
      skipToToken marked inBrackets fuel (keyAllowed || !inBrackets) c.skipBreak
    else (keyAllowed, c)

end RulePlan.Yaml.Cursor
