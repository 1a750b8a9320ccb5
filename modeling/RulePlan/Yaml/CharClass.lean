/-!
# RulePlan.Yaml.CharClass — classes of characters in structured text

Structured text has no control characters, so the character zero can stand for the end of the text.
-/

namespace RulePlan.Yaml

/-- What stands for the end of a text. -/
def endMark : Char := Char.ofNat 0

/-- Blanks within a line. -/
def isBlank (c : Char) : Bool := c == ' ' || c == '\t'

/-- Line breaks. -/
def isBreak (c : Char) : Bool :=
  c == '\n' || c == '\r' || c.toNat == 0x85 || c.toNat == 0x2028 || c.toNat == 0x2029

/-- A line break or the end of the text. -/
def endsLine (c : Char) : Bool := isBreak c || c == endMark

/-- A blank, a line break or the end of the text. -/
def isGap (c : Char) : Bool := isBlank c || endsLine c

/-- Characters of the names of anchors, tag handles and directives. -/
def isNameChar (c : Char) : Bool := c.isAlphanum || c == '_' || c == '-'

/-- Characters of a tag besides those of names. -/
def isTagPunctuation (c : Char) : Bool :=
  c ∈ [';', '/', '?', ':', '@', '&', '=', '+', '$', ',', '.', '!', '~', '*', '\x27', '(', ')', '[',
    ']', '%']

/-- The value of a digit in any radix up to sixteen. -/
def digit? (c : Char) : Option Nat :=
  let n := c.toNat
  if 48 ≤ n ∧ n ≤ 57 then some (n - 48)
  else if 97 ≤ n ∧ n ≤ 102 then some (n - 87)
  else if 65 ≤ n ∧ n ≤ 70 then some (n - 55)
  else none

/-- Characters that may stand in a text at all. -/
def isAllowed (c : Char) : Bool :=
  let n := c.toNat
  n == 0x09 || n == 0x0A || n == 0x0D || (0x20 ≤ n && n ≤ 0x7E) || n == 0x85
    || (0xA0 ≤ n && n ≤ 0xFFFD) || 0x10000 ≤ n

end RulePlan.Yaml
