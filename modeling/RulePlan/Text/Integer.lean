/-!
# RulePlan.Text.Integer — whole numbers in several radices

A number may have a sign, and after it a mark of its radix: `0x` for sixteen, `0o` or `0` for eight,
`0b` for two. Underscores may separate digits; the mark counts as a digit then. Digits are taken in
from the left, so of two faults the first one counts.
-/

namespace RulePlan.Text.Integer

/-- Why a text is no number of 64 bits. -/
inductive Fault where
  | malformed
  | outOfRange
deriving DecidableEq, Repr

/-- The value of a digit or letter. -/
def digit? (c : Char) : Option Nat :=
  if c.isDigit then some (c.toNat - 48)
  else if c.isLower then some (c.toNat - 87)
  else if c.isUpper then some (c.toNat - 55)
  else none

/-- The sign and what follows it. -/
def sign : List Char → Bool × List Char
  | '-' :: cs => (true, cs)
  | '+' :: cs => (false, cs)
  | cs => (false, cs)

/-- The radix that the mark `0x`, `0o` or `0b` stands for. -/
def marked? : List Char → Option (Nat × List Char)
  | '0' :: c :: cs =>
    if c = 'x' ∨ c = 'X' then some (16, cs)
    else if c = 'o' ∨ c = 'O' then some (8, cs)
    else if c = 'b' ∨ c = 'B' then some (2, cs)
    else none
  | _ => none

/-- The radix of an unsigned number and its digits. A mark needs digits after it. -/
def radix (cs : List Char) : Nat × List Char :=
  match marked? cs with
  | some (r, d :: ds) => (r, d :: ds)
  | _ =>
    match cs with
    | '0' :: ds => (8, ds)
    | ds => (10, ds)

/-- The value of digits after others of value `n`; underscores do not count. -/
def magnitude (radix : Nat) : (n : Nat) → List Char → Except Fault Nat
  | n, [] => .ok n
  | n, c :: cs =>
    if c = '_' then magnitude radix n cs
    else
      match digit? c with
      | none => .error .malformed
      | some d =>
        if radix ≤ d then .error .malformed
        else if 1 <<< 64 ≤ n * radix + d then .error .outOfRange
        else magnitude radix (n * radix + d) cs

/-- Whether every underscore stands between digits. `digit` says whether the character before is
one. -/
def separates (isDigit : Char → Bool) : (digit : Bool) → List Char → Bool
  | _, [] => true
  | _, ['_'] => false
  | digit, '_' :: c :: cs => digit && isDigit c && separates isDigit true cs
  | _, c :: cs => separates isDigit (isDigit c) cs

/-- Whether the underscores of an unsigned number are in place. -/
def underscoresFit (cs : List Char) : Bool :=
  match marked? cs with
  | some (r, ds) => separates (fun c => c.isDigit || (r == 16 && (digit? c).any (· < 16))) true ds
  | none => separates Char.isDigit false cs

/-- Reads a number of 64 bits with a sign. -/
def read (s : String) : Except Fault Int :=
  let (negative, cs) := sign s.toList
  let (r, ds) := radix cs
  if cs.isEmpty then .error .malformed
  else
    match magnitude r 0 ds with
    | .error fault => .error fault
    | .ok n =>
      if ds.contains '_' && !underscoresFit cs then .error .malformed
      else if n < 1 <<< 63 then .ok (if negative then -n else n)
      else if negative && n == 1 <<< 63 then .ok (-n)
      else .error .outOfRange

end RulePlan.Text.Integer
