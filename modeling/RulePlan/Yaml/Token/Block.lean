import RulePlan.Yaml.Token.Comment

/-!
# RulePlan.Yaml.Token.Block — scalars as blocks of lines

After a bar the lines of the block are kept as they are; after an angle line breaks between lines
that do not start with a blank are spaces. The header may give the indentation, which is otherwise
that of the first line, and say whether line breaks at the end are kept: one, all or none.
-/

namespace RulePlan.Yaml.Block

/-- What becomes of the line breaks at the end of a block. -/
inductive Ending where
  | one
  | all
  | none
deriving DecidableEq, Repr

/-- The header of a block: the added indentation, if any, and the ending. -/
structure Header where
  step : Nat := 0
  ending : Ending := .one
deriving Repr

/-- The ending that a sign stands for. -/
def ending? (c : Char) : Option Ending :=
  if c == '+' then some .all else if c == '-' then some .none else Option.none

/-- Reads a digit for the indentation, if there is one. -/
def step (start : Nat) (c : Cursor) : Except Fault (Nat × Cursor) :=
  if c.head == '0' then .error (c.fault start .zeroIndentation)
  else if c.head.isDigit then .ok (c.head.toNat - 48, c.skip)
  else .ok (0, c)

/-- Reads the signs of a header in either order. -/
def signs (start : Nat) (c : Cursor) : Except Fault (Header × Cursor) :=
  match ending? c.head with
  | some ending => (step start c.skip).map fun (step, c) => ({ step, ending }, c)
  | none =>
    match step start c with
    | .error fault => .error fault
    | .ok (0, c) => .ok ({}, c)
    | .ok (step, c) =>
      match ending? c.head with
      | some ending => .ok ({ step, ending }, c.skip)
      | none => .ok ({ step }, c)

/-- Reads a header after its sign, with the end of its line. -/
def header (start : Nat) (c : Cursor) : Except Fault (Header × Cursor) :=
  match signs start c with
  | .error fault => .error fault
  | .ok (h, c) =>
    let c := c.skipWhile isBlank
    let c := if c.head == '#' then c.skipLine else c
    if endsLine c.head then .ok (h, c.skipBreak) else .error (c.fault start .missingLineEnd)

/-- Passes indentation and empty lines; `indent` is zero while it is not known. Gives the line
breaks and the widest indentation seen. -/
def gap (indent start : Nat) : (fuel : Nat) → (widest : Nat) → (breaks : List Char) → Cursor →
    Except Fault (Nat × List Char × Cursor)
  | 0, widest, breaks, c => .ok (widest, breaks, c)
  | fuel + 1, widest, breaks, c =>
    let spaces := (c.rest.takeWhile (· == ' ')).length
    let c := c.skips (if indent = 0 then spaces else min spaces (indent - c.column))
    let widest := max widest c.column
    if (indent = 0 ∨ c.column < indent) ∧ c.head = '\t' then .error (c.fault start .tabInBlock)
    else if isBreak c.head then gap indent start fuel widest (breaks ++ c.takeBreak.1) c.skipBreak
    else .ok (widest, breaks, c)

/-- What has been read of a block: its text, the break after its last line, the breaks of the empty
lines after that, and whether the last line starts with a blank. -/
structure State where
  text : List Char := []
  lineBreak : List Char := []
  breaks : List Char := []
  blank : Bool := false

/-- Reads the lines of a block. -/
def lines (folded : Bool) (indent start : Nat) : (fuel : Nat) → State → Cursor →
    Except Fault (State × Cursor)
  | 0, s, c => .ok (s, c)
  | fuel + 1, s, c =>
    if c.column ≠ indent ∨ c.isEnd then .ok (s, c)
    else
      let blank := isBlank c.head
      let join :=
        if folded && !s.blank && !blank && s.lineBreak.head? == some '\n' then
          if s.breaks.isEmpty then [' '] else []
        else s.lineBreak
      let (line, c) := c.takeWhile (!endsLine ·)
      let (lineBreak, c) := c.takeBreak
      match gap indent start (c.size + 1) 0 [] c with
      | .error fault => .error fault
      | .ok (_, breaks, c) =>
        lines folded indent start fuel
          ⟨s.text ++ join ++ s.breaks ++ line, lineBreak, breaks, blank⟩ c

/-- Reads a block at its sign; `outer` is the column of the collection around it, if any. -/
def read (outer : Option Nat) (c : Cursor) : Except Fault (String × Cursor) :=
  let start := c.line
  match header start c.skip with
  | .error fault => .error fault
  | .ok (h, after) =>
    let given := if h.step = 0 then 0 else outer.getD 0 + h.step
    match gap given start (after.size + 1) 0 [] after with
    | .error fault => .error fault
    | .ok (widest, breaks, first) =>
      let least := match outer with
        | some n => n + 1
        | none => 0
      let indent := if given = 0 then max (max widest least) 1 else given
      match lines (c.head == '>') indent start (first.size + 1) { breaks } first with
      | .error fault => .error fault
      | .ok (s, c) =>
        let tail :=
          match h.ending with
          | .one => s.lineBreak
          | .all => s.lineBreak ++ s.breaks
          | .none => []
        .ok (String.ofList (s.text ++ tail), c)

end RulePlan.Yaml.Block
