import RulePlan.Text.Decimal

/-!
# RulePlan.Text.Scientific — decimal numbers with a point and an exponent

A number is digits with at most one point among them, then possibly a power of ten. Its meaning is
exact: the digits as one natural number and the power of ten they are scaled by. `isFinite` says
whether that meaning is within the range of binary64 numbers.
-/

namespace RulePlan.Text

/-- The number `digits * 10 ^ exponent`. -/
structure Scientific where
  digits : Nat
  exponent : Int
deriving DecidableEq, Repr

namespace Scientific

/-- A power of ten: nothing, or a mark with an optional sign and digits. -/
def exponent? : List Char → Option Int
  | [] => some 0
  | e :: rest =>
    if e ≠ 'e' ∧ e ≠ 'E' then none
    else
      let (negative, ds) :=
        match rest with
        | '-' :: ds => (true, ds)
        | '+' :: ds => (false, ds)
        | ds => (false, ds)
      if ds.isEmpty ∨ !ds.all Char.isDigit then none
      else
        let v : Int := Decimal.value ds
        some (if negative then -v else v)

/-- Reads an unsigned number: digits, a point with digits, a power of ten. -/
def read? (cs : List Char) : Option Scientific :=
  let whole := cs.takeWhile Char.isDigit
  let afterWhole := cs.dropWhile Char.isDigit
  let (part, rest) :=
    match afterWhole with
    | '.' :: rest => (rest.takeWhile Char.isDigit, rest.dropWhile Char.isDigit)
    | _ => ([], afterWhole)
  if whole.isEmpty ∧ part.isEmpty then none
  else (exponent? rest).map fun e => ⟨Decimal.value (whole ++ part), e - part.length⟩

/-- Whether a number rounds to a finite binary64 number. -/
def isFinite (s : Scientific) : Bool :=
  let size : Int := (Decimal.digits s.digits).length + s.exponent
  if s.digits = 0 ∨ size < 300 then true
  else if 320 < size then false
  else
    let limit := 1 <<< 1024 - 1 <<< 970
    if 0 ≤ s.exponent then s.digits * Nat.pow 10 s.exponent.toNat < limit
    else s.digits < limit * Nat.pow 10 (-s.exponent).toNat

end Scientific

end RulePlan.Text
