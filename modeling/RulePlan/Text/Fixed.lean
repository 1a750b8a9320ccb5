import RulePlan.Text.Decimal

/-!
# RulePlan.Text.Fixed — quotients with a fixed number of decimals

A quotient is first rounded to a binary fraction with a significand of 53 bits, then to the wanted
number of decimal places; both roundings go to the nearest value and, between two, to the even one.
The first rounding decides what becomes of quotients that look like a decimal tie.
-/

namespace RulePlan.Text.Fixed

/-- The quotient rounded to the nearest integer, a half to the even one. -/
def roundDiv (num den : Nat) : Nat :=
  let q := num / den
  let r := num % den
  if 2 * r < den then q
  else if den < 2 * r then q + 1
  else if q % 2 = 0 then q else q + 1

/-- A quotient as `significand / 2 ^ shift * 2 ^ scale`, with a significand of at most 53 bits. -/
structure Binary where
  significand : Nat
  shift : Nat
  scale : Nat

/-- The nearest binary fraction with a significand of 53 bits. -/
def binary (num den : Nat) : Binary :=
  let whole := Nat.log2 (num / den)
  let small := num / den = 0
  if small then
    let extra := Nat.log2 (den / max num 1) + 54
    ⟨roundDiv (num <<< extra) den, extra, 0⟩
  else if whole ≤ 52 then ⟨roundDiv (num <<< (52 - whole)) den, 52 - whole, 0⟩
  else ⟨roundDiv num (den <<< (whole - 52)), 0, whole - 52⟩

/-- The whole part of a binary fraction. -/
def Binary.floor (b : Binary) : Nat := (b.significand <<< b.scale) >>> b.shift

/-- The quotient with one decimal place. -/
def tenths (num den : Nat) : String :=
  let b := binary num den
  let n := roundDiv ((10 * b.significand) <<< b.scale) (1 <<< b.shift)
  Decimal.ofNat (n / 10) ++ "." ++ Decimal.ofNat (n % 10)

end RulePlan.Text.Fixed
