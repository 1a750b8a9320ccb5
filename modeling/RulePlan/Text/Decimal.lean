/-!
# RulePlan.Text.Decimal — whole numbers as decimal text

Line numbers, columns, arities and constants are all written in base ten, without leading zeros
and with a leading minus sign below zero. `digits` and `value` are the two directions on naturals,
and `value_digits` says that reading undoes writing; `readInt64?` reads a run of digits into the
64-bit range of constants and refuses what does not fit.
-/

namespace RulePlan.Text.Decimal

/-- The digit character of a number below ten. -/
def digitChar (n : Nat) : Char := Char.ofNat (48 + n)

/-- The value of a digit character. -/
def digitValue (c : Char) : Nat := c.toNat - 48

/-- The decimal digits of a natural number, most significant first; zero is one digit. -/
def digits (n : Nat) : List Char :=
  if n < 10 then [digitChar n] else digits (n / 10) ++ [digitChar (n % 10)]
termination_by n
decreasing_by omega

/-- The number spelled by a list of digits. -/
def value (ds : List Char) : Nat := ds.foldl (fun acc c => 10 * acc + digitValue c) 0

/-- Natural numbers as text. -/
def ofNat (n : Nat) : String := String.ofList (digits n)

/-- Integers as text, with a leading minus sign below zero. -/
def ofInt (i : Int) : String :=
  if i < 0 then String.ofList ('-' :: digits i.natAbs) else ofNat i.natAbs

/-- 64-bit constants as text. -/
def ofInt64 (v : Int64) : String := ofInt v.toInt

/-- Reads a run of digits, negated on request, if the value lies in the 64-bit range. -/
def readInt64? (negative : Bool) (ds : List Char) : Option Int64 :=
  let magnitude : Int := value ds
  let v := if negative then -magnitude else magnitude
  if -9223372036854775808 ≤ v ∧ v ≤ 9223372036854775807 then some (Int64.ofInt v) else none

theorem digitValue_digitChar : ∀ n < 10, digitValue (digitChar n) = n := by decide

theorem value_append_singleton (ds : List Char) (c : Char) :
    value (ds ++ [c]) = 10 * value ds + digitValue c := by
  simp [value]

/-- Reading the digits of a number gives the number back. -/
theorem value_digits (n : Nat) : value (digits n) = n := by
  fun_induction digits n with
  | case1 n h => simp [value, digitValue_digitChar n h]
  | case2 n h ih =>
    rw [value_append_singleton, ih, digitValue_digitChar _ (by omega)]
    omega

theorem digits_ne_nil (n : Nat) : digits n ≠ [] := by
  rw [digits]
  split <;> simp

theorem eq_of_digits {m n : Nat} (h : digits m = digits n) : m = n := by
  rw [← value_digits m, h, value_digits]

end RulePlan.Text.Decimal
