import RulePlan.Text.Fixed

/-!
# RulePlan.Duration — lengths of time as text

A duration is a number of nanoseconds. It is written in hours, minutes and seconds with a decimal
fraction (`1h30m0.5s`), below one second in the largest of `ms`, `µs` and `ns` that leaves a whole
part, and `0s` if it is zero. Reading accepts any sequence of decimal numbers with units, with a
sign in front.
-/

namespace RulePlan.Duration

open Text.Decimal (digits)

/-! ## Writing -/

/-- The last `places` decimal digits of a number after a point, without trailing zeros. -/
def renderFraction (places n : Nat) : List Char :=
  let ds := digits n
  let all := List.replicate (places - ds.length) '0' ++ ds
  match (all.reverse.dropWhile (· == '0')).reverse with
  | [] => []
  | kept => if n = 0 then [] else '.' :: kept

/-- A magnitude of at least one second. -/
def renderLong (n : Nat) : List Char :=
  let seconds := n / 1000000000
  let minutes := seconds / 60
  let hours := minutes / 60
  (if hours = 0 then [] else digits hours ++ ['h'])
    ++ (if minutes = 0 then [] else digits (minutes % 60) ++ ['m'])
    ++ digits (seconds % 60) ++ renderFraction 9 (n % 1000000000) ++ ['s']

/-- A magnitude. -/
def renderMagnitude (n : Nat) : List Char :=
  if n = 0 then ['0', 's']
  else if n < 1000 then digits n ++ ['n', 's']
  else if n < 1000000 then digits (n / 1000) ++ renderFraction 3 (n % 1000) ++ ['µ', 's']
  else if n < 1000000000 then digits (n / 1000000) ++ renderFraction 6 (n % 1000000) ++ ['m', 's']
  else renderLong n

/-- A duration of a number of nanoseconds as text. -/
def render (ns : Int) : String :=
  String.ofList (if ns < 0 then '-' :: renderMagnitude ns.natAbs else renderMagnitude ns.natAbs)

/-! ## Reading -/

/-- The nanoseconds of a unit. -/
def unit? (name : List Char) : Option Nat :=
  match String.ofList name with
  | "ns" => some 1
  | "us" | "µs" | "μs" => some 1000
  | "ms" => some 1000000
  | "s" => some 1000000000
  | "m" => some 60000000000
  | "h" => some 3600000000000
  | _ => none

/-- The largest magnitude, which only a negative duration reaches. -/
def most : Nat := 9223372036854775808

/-- The digits of a fraction as far as they fit below the largest magnitude, with their power of
ten; later digits are dropped. -/
def fractionValue : (value power : Nat) → List Char → Nat × Nat
  | value, power, [] => (value, power)
  | value, power, d :: ds =>
    let next := 10 * value + Text.Decimal.digitValue d
    if (most - 1) / 10 < value ∨ most < next then (value, power)
    else fractionValue next (10 * power) ds

/-- A fraction of a unit in nanoseconds, through quotients and products with 53 significant bits. -/
def fractionOf (ds : List Char) (unit : Nat) : Nat :=
  let (value, power) := fractionValue 0 1 ds
  let part := Text.Fixed.binary unit power
  let whole := Text.Fixed.binary value 1
  let product := Text.Fixed.binary
    ((whole.significand * part.significand) <<< (whole.scale + part.scale))
    (1 <<< (whole.shift + part.shift))
  product.floor

/-- The characters of a unit name: all up to the next number. -/
def inUnit (c : Char) : Bool := !(c.isDigit || c == '.')

/-- One number with its unit in nanoseconds, and the rest. -/
def component? (cs : List Char) : Option (Nat × List Char) :=
  let whole := cs.takeWhile Char.isDigit
  let afterWhole := cs.dropWhile Char.isDigit
  let (part, rest) :=
    match afterWhole with
    | '.' :: rest => (rest.takeWhile Char.isDigit, rest.dropWhile Char.isDigit)
    | _ => ([], afterWhole)
  if whole.isEmpty ∧ part.isEmpty then none
  else
    match unit? (rest.takeWhile inUnit) with
    | none => none
    | some unit =>
      let value := Text.Decimal.value whole
      let total := value * unit + fractionOf part unit
      if most < value ∨ most / unit < value ∨ most < total then none
      else some (total, rest.dropWhile inUnit)

/-- Sums are taken in 64 bits, so twice the largest magnitude counts as nothing. -/
def word : Nat := 2 * most

/-- The sum of all components. Each takes at least a digit, so the fuel, a bound on the length,
suffices. -/
def sum? : (fuel : Nat) → (total : Nat) → List Char → Option Nat
  | _, total, [] => some total
  | 0, _, _ => none
  | fuel + 1, total, cs =>
    match component? cs with
    | none => none
    | some (n, rest) =>
      let sum := (total + n) % word
      if most < sum then none else sum? fuel sum rest

/-- An unsigned duration: zero alone needs no unit. -/
def magnitude? (cs : List Char) : Option Nat :=
  match cs with
  | [] => none
  | ['0'] => some 0
  | _ => sum? cs.length 0 cs

/-- Reads a duration in nanoseconds. -/
def read? (s : String) : Option Int :=
  match s.toList with
  | '-' :: cs => (magnitude? cs).map fun n => -(n : Int)
  | '+' :: cs => positive cs
  | cs => positive cs
where
  positive (cs : List Char) : Option Int :=
    match magnitude? cs with
    | some n => if n < most then some n else none
    | none => none

end RulePlan.Duration
