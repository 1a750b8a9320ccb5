import RulePlan.Text.Blank
import RulePlan.Text.Width

/-!
# RulePlan.Table — Markdown tables

A table is a list of titled columns and a list of rows. A column is as wide as its widest title or
cell; cells are padded on the right, in a right-aligned column on the left, and titles stand in the
middle, with the smaller half of the padding in front. A rule of dashes follows the titles.
-/

namespace RulePlan

/-- The side to which the cells of a column are pushed. -/
inductive Alignment where
  | left
  | right
deriving DecidableEq, Repr

/-- A column of a table. -/
structure Column where
  title : String
  alignment : Alignment := .left
deriving DecidableEq, Repr

/-- A table. Rows have one cell for each column. -/
structure Table where
  columns : List Column
  rows : List (List String)
deriving DecidableEq, Repr

namespace Table

/-- A number of spaces. -/
def spaces (n : Nat) : String := String.ofList (List.replicate n ' ')

/-- The lines of a cell, without blanks around the whole. -/
def cellLines (cell : String) : List String := (Text.trim cell).splitOn "\n"

/-- The columns that a cell takes. -/
def cellWidth (cell : String) : Nat := ((cellLines cell).map Text.Width.ofText).foldl max 0

/-- The width of the n-th column. -/
def width (t : Table) (n : Nat) (c : Column) : Nat :=
  (t.rows.map fun row => cellWidth (row.getD n "")).foldl max (Text.Width.ofText c.title)

/-- Pads a text to a width, away from its side. -/
def pad (alignment : Alignment) (width : Nat) (s : String) : String :=
  let gap := spaces (width - Text.Width.ofText s)
  match alignment with
  | .left => s ++ gap
  | .right => gap ++ s

/-- Pads a text on both sides, less in front. -/
def centre (width : Nat) (s : String) : String :=
  let gap := width - Text.Width.ofText s
  spaces (gap / 2) ++ s ++ spaces (gap - gap / 2)

/-- One line of a table. -/
def line (cells : List String) : String :=
  "|" ++ String.join (cells.map fun c => " " ++ c ++ " |") ++ "\n"

/-- The dashes under a title; a colon marks right alignment. -/
def dashes (alignment : Alignment) (width : Nat) : String :=
  match alignment with
  | .left => String.ofList (List.replicate (width + 2) '-')
  | .right => String.ofList (List.replicate (width + 1) '-') ++ ":"

/-- The lines of a row: as many as its tallest cell has, without those that are blank in all
cells. -/
def rowLines (widths : List (Column × Nat)) (row : List String) : String :=
  let cells := row.map cellLines
  let height := (cells.map List.length).foldl max 1
  String.join ((List.range height).map fun i =>
    if cells.all fun lines => Text.trim (lines.getD i "") == "" then ""
    else line ((widths.zip cells).map fun ((c, w), lines) => pad c.alignment w (lines.getD i "")))

/-- The table as text. -/
def render (t : Table) : String :=
  let widths := t.columns.zipIdx.map fun (c, n) => (c, t.width n c)
  line (widths.map fun (c, w) => centre w c.title)
    ++ "|" ++ String.join (widths.map fun (c, w) => dashes c.alignment w ++ "|") ++ "\n"
    ++ String.join (t.rows.map (rowLines widths))

end Table

end RulePlan
