import RulePlan.Text.Bytes

/-!
# RulePlan.Text.Base64 — bytes written with sixty-four characters

Four characters stand for three bytes; at the end one or two of them may be equals signs, for one or
two bytes less. Line breaks are passed over.
-/

namespace RulePlan.Text.Base64

/-- The value of a character. -/
def value? (c : Char) : Option Nat :=
  let n := c.toNat
  if 65 ≤ n ∧ n ≤ 90 then some (n - 65)
  else if 97 ≤ n ∧ n ≤ 122 then some (n - 71)
  else if 48 ≤ n ∧ n ≤ 57 then some (n + 4)
  else if c = '+' then some 62
  else if c = '/' then some 63
  else none

/-- The bytes of a number of twenty-four bits. -/
def triple (n : Nat) : List UInt8 :=
  [UInt8.ofNat (n / 65536), UInt8.ofNat (n / 256 % 256), UInt8.ofNat (n % 256)]

/-- The bytes that characters stand for. -/
def bytes? : List Char → Option (List UInt8)
  | [] => some []
  | a :: b :: c :: d :: rest => do
    let a ← value? a
    let b ← value? b
    if c = '=' ∧ d = '=' ∧ rest = [] then some ((triple (262144 * a + 4096 * b)).take 1)
    else
      let c ← value? c
      if d = '=' ∧ rest = [] then some ((triple (262144 * a + 4096 * b + 64 * c)).take 2)
      else
        let d ← value? d
        let more ← bytes? rest
        some (triple (262144 * a + 4096 * b + 64 * c + d) ++ more)
  | _ => none

/-- The text whose bytes are written. -/
def decode? (s : String) : Option String :=
  (bytes? (s.toList.filter fun c => c != '\n' && c != '\r')).map ofBytes

end RulePlan.Text.Base64
