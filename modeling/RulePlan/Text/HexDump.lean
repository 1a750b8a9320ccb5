import RulePlan.Text.Quoted

/-!
# RulePlan.Text.HexDump — bytes sixteen to a line

A line has the offset in eight hexadecimal digits, the bytes in two groups of eight, and between
bars the characters of those bytes that print, with points for the others.
-/

namespace RulePlan.Text.HexDump

/-- A byte as two digits. -/
def hexByte (b : UInt8) : List Char := Quoted.hex 2 b.toNat

/-- A byte as a character, or a point. -/
def shown (b : UInt8) : Char := if 32 ≤ b ∧ b ≤ 126 then Char.ofNat b.toNat else '.'

/-- The columns of a group of eight bytes, each followed by a space. -/
def group (bytes : List UInt8) : List Char :=
  (List.range 8).flatMap fun i =>
    match bytes[i]? with
    | some b => hexByte b ++ [' ']
    | none => [' ', ' ', ' ']

/-- One line. -/
def line (offset : Nat) (bytes : List UInt8) : List Char :=
  Quoted.hex 8 offset ++ [' ', ' '] ++ group bytes ++ ' ' :: group (bytes.drop 8) ++ [' ', '|']
    ++ bytes.map shown ++ ['|', '\n']

/-- All lines from an offset on; each takes sixteen bytes. -/
def lines (offset : Nat) (bytes : List UInt8) : List Char :=
  if _h : bytes.isEmpty then []
  else line offset (bytes.take 16) ++ lines (offset + 16) (bytes.drop 16)
termination_by bytes.length
decreasing_by
  simp only [List.length_drop]
  have : 0 < bytes.length := List.length_pos_iff.2 (by simpa using _h)
  omega

/-- The dump of a list of bytes. -/
def render (bytes : List UInt8) : String := String.ofList (lines 0 bytes)

end RulePlan.Text.HexDump
