/-!
# RulePlan.Text.Blank — white space and trimming

White space is the Unicode property of that name: the five ASCII controls and space, the Latin-1
pair U+0085 and U+00A0, and the typographic spaces and separators above them. Rule text is trimmed
by characters; the lexer applies the same test to single bytes.
-/

namespace RulePlan.Text

/-- The Unicode white-space characters. -/
def isBlank (c : Char) : Bool :=
  let n := c.toNat
  (9 ≤ n && n ≤ 13) || n == 0x20 || n == 0x85 || n == 0xA0 || n == 0x1680
    || (0x2000 ≤ n && n ≤ 0x200A) || n == 0x2028 || n == 0x2029 || n == 0x202F
    || n == 0x205F || n == 0x3000

/-- Drops white space in front. -/
def trimLeft (cs : List Char) : List Char := cs.dropWhile isBlank

/-- Drops white space at the end. -/
def trimRight (cs : List Char) : List Char := (cs.reverse.dropWhile isBlank).reverse

/-- Drops white space at both ends. -/
def trim (s : String) : String := String.ofList (trimRight (trimLeft s.toList))

theorem isBlank_of_isWhitespace {c : Char} (h : c.isWhitespace = true) : isBlank c = true := by
  simp only [Char.isWhitespace, Bool.or_eq_true, decide_eq_true_eq] at h
  rcases h with ((rfl | rfl) | rfl) | rfl <;> rfl

end RulePlan.Text
