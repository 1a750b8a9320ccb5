import RulePlan.Yaml.Cursor

/-!
# RulePlan.Yaml.Token.Gap — blanks and line breaks inside a scalar

Blanks between two words of a line are kept. Blanks around line breaks are dropped, and a single
line break is a space; of several line feeds the first is dropped. Other line separators are kept.
-/

namespace RulePlan.Yaml

/-- What stands between two words of a scalar: blanks if it has no line break, else its first line
break and the further ones. -/
structure Gap where
  blanks : List Char := []
  broken : Bool := false
  first : List Char := []
  further : List Char := []
deriving Repr

namespace Gap

/-- Adds a blank. -/
def addBlank (g : Gap) (c : Char) : Gap :=
  if g.broken then g else { g with blanks := g.blanks ++ [c] }

/-- Adds a line break. -/
def addBreak (g : Gap) (b : List Char) : Gap :=
  if g.broken then { g with further := g.further ++ b } else { broken := true, first := b }

/-- The characters that a gap stands for. -/
def text (g : Gap) : List Char :=
  if !g.broken then g.blanks
  else if g.first.head? == some '\n' then if g.further.isEmpty then [' '] else g.further
  else g.first ++ g.further

/-- Reads a gap. A tab before the column of the indentation is a fault of the scalar that starts on
a line. -/
def read (indent start : Nat) : (fuel : Nat) → Gap → Cursor → Except Fault (Gap × Cursor)
  | 0, g, c => .ok (g, c)
  | fuel + 1, g, c =>
    if isBlank c.head then
      if g.broken && decide (c.column < indent) && c.head == '\t' then
        .error (c.fault start .tabInPlain)
      else read indent start fuel (g.addBlank c.head) c.skip
    else if isBreak c.head then read indent start fuel (g.addBreak c.takeBreak.1) c.skipBreak
    else .ok (g, c)

end Gap

end RulePlan.Yaml
