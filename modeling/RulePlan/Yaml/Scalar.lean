import RulePlan.Text.Base64
import RulePlan.Text.Fixed
import RulePlan.Text.Scientific
import RulePlan.Timestamp
import RulePlan.Yaml.CharClass

/-!
# RulePlan.Yaml.Scalar — what a scalar stands for

An unquoted word is null, a truth value, an integer, a decimal number or a timestamp if it has one
of their forms, and otherwise plain text. Integers may have a radix mark and underscores; a leading
zero means octal. Numbers too large for 64 bits are decimals, and decimals too large for a binary64
number are text. A tag can demand one of these types; a tag of no known type leaves text.
-/

namespace RulePlan.Yaml

/-- The reading of an unquoted scalar. -/
inductive Scalar where
  | null
  | bool (value : Bool)
  | int (value : Int)
  | decimal (negative : Bool) (digits : Nat) (exponent : Int)
  | infinite (negative : Bool)
  | nan
  | time (value : Timestamp)
  | text
deriving DecidableEq, Repr

namespace Scalar

/-- The words with a meaning of their own. -/
def word? (s : String) : Option Scalar :=
  match s with
  | "" | "~" | "null" | "Null" | "NULL" => some .null
  | "true" | "True" | "TRUE" => some (.bool true)
  | "false" | "False" | "FALSE" => some (.bool false)
  | ".nan" | ".NaN" | ".NAN" => some .nan
  | ".inf" | ".Inf" | ".INF" | "+.inf" | "+.Inf" | "+.INF" => some (.infinite false)
  | "-.inf" | "-.Inf" | "-.INF" => some (.infinite true)
  | _ => none

/-! ## Integers -/

/-- The value of a run of digits in a radix. -/
def radixValue? (radix : Nat) : (acc : Nat) → List Char → Option Nat
  | acc, [] => some acc
  | acc, c :: cs =>
    match digit? c with
    | some d => if d < radix then radixValue? radix (radix * acc + d) cs else none
    | none => none

/-- The value of a nonempty run of digits in a radix. -/
def radixRun? (radix : Nat) (cs : List Char) : Option Nat :=
  if cs.isEmpty then none else radixValue? radix 0 cs

/-- An unsigned integer, its radix read off its first characters. -/
def unsigned? : List Char → Option Nat
  | '0' :: c :: d :: rest =>
    if c = 'x' ∨ c = 'X' then radixValue? 16 0 (d :: rest)
    else if c = 'o' ∨ c = 'O' then radixValue? 8 0 (d :: rest)
    else if c = 'b' ∨ c = 'B' then radixValue? 2 0 (d :: rest)
    else radixValue? 8 0 (c :: d :: rest)
  | '0' :: rest => radixValue? 8 0 rest
  | cs => radixRun? 10 cs

/-- Whether an integer has 64 bits with a sign. -/
def fits (v : Int) : Bool := -9223372036854775808 ≤ v && v ≤ 9223372036854775807

/-- An integer of 64 bits; without a sign it may use all of them. -/
def int? (cs : List Char) : Option Int :=
  match cs with
  | '-' :: rest => (unsigned? rest).bind fun n => if fits (-n) then some (-n) else none
  | '+' :: rest => (unsigned? rest).bind fun n => if fits n then some n else none
  | _ => (unsigned? cs).bind fun n => if n < 1 <<< 64 then some n else none

/-- A run of digits with an optional sign, of 64 bits. -/
def signedRun? (radix : Nat) : List Char → Option Int
  | '-' :: rest => (radixRun? radix rest).bind fun n => if fits (-n) then some (-n) else none
  | '+' :: rest => (radixRun? radix rest).bind fun n => if fits n then some n else none
  | cs => (radixRun? radix cs).bind fun n => if fits n then some n else none

/-- A binary or octal mark may also be followed by the sign. -/
def markedInt? : List Char → Option Int
  | '0' :: 'b' :: rest => signedRun? 2 rest
  | '0' :: 'o' :: rest => signedRun? 8 rest
  | _ => none

/-! ## Decimals -/

/-- An unsigned decimal within the range of binary64 numbers. -/
def magnitude? (negative : Bool) (cs : List Char) : Option Scalar :=
  match Text.Scientific.read? cs with
  | none => none
  | some v => if v.isFinite then some (.decimal negative v.digits v.exponent) else none

/-- A decimal with an optional sign. -/
def decimal? : List Char → Option Scalar
  | '-' :: rest => magnitude? true rest
  | '+' :: rest => magnitude? false rest
  | cs => magnitude? false cs

/-- A decimal without its fraction, if it has 64 bits; first it is rounded to 53 significant
bits. -/
def truncate? (negative : Bool) (digits : Nat) (exponent : Int) : Option Int :=
  let b :=
    if 0 ≤ exponent then Text.Fixed.binary (digits * Nat.pow 10 exponent.toNat) 1
    else Text.Fixed.binary digits (Nat.pow 10 (min 1000 (-exponent).toNat))
  let n : Int := b.floor
  let v := if negative then -n else n
  if fits v then some v
  else if negative then some (-9223372036854775808) else none

/-! ## Resolution -/

/-- Whether a text starts like a date: four digits and a dash. -/
def startsDate (cs : List Char) : Bool :=
  (cs.takeWhile Char.isDigit).length == 4 && (cs.drop 4).head? == some '-'

/-- A number or timestamp. -/
def number? (cs : List Char) : Option Scalar :=
  let plain := cs.filter (· != '_')
  match if startsDate cs then Timestamp.read? (String.ofList cs) else none with
  | some t => some (.time t)
  | none =>
    match int? plain with
    | some v => some (.int v)
    | none =>
      match decimal? plain with
      | some d => some d
      | none => (markedInt? plain).map .int

/-- What an unquoted scalar stands for. -/
def ofPlain (s : String) : Scalar :=
  match word? s with
  | some v => v
  | none =>
    match s.toList with
    | [] => .null
    | c :: cs =>
      if c = '.' then (decimal? (c :: cs)).getD .text
      else if c.isDigit ∨ c = '+' ∨ c = '-' then (number? (c :: cs)).getD .text
      else .text

/-! ## Tags -/

/-- The tag of the type of a value. -/
def tag : Scalar → String
  | .null => "!!null"
  | .bool _ => "!!bool"
  | .int _ => "!!int"
  | .decimal _ _ _ => "!!float"
  | .infinite _ => "!!float"
  | .nan => "!!float"
  | .time _ => "!!timestamp"
  | .text => "!!str"

/-- The types that plain scalars can have, text apart. -/
def typeTags : List String := ["!!null", "!!bool", "!!int", "!!float", "!!timestamp"]

/-- What a scalar of a type stands for, if it has the form of that type. An integer of 64 bits with
a sign also has the form of a decimal. -/
def ofType? (type : String) (s : String) : Option Scalar :=
  let v := ofPlain s
  if v.tag = type then some v
  else
    match v with
    | .int n => if type = "!!float" ∧ fits n then some (.decimal (n < 0) n.natAbs 0) else none
    | _ => none

/-- What a tagged scalar stands for, with its text. -/
def ofTagged? (type : String) (s : String) : Option (Scalar × String) :=
  if type ∈ typeTags then (ofType? type s).map (·, s)
  else if type = "!!binary" then (Text.Base64.decode? s).map (.text, ·)
  else some (.text, s)

/-! ## Words that other readers take for something else -/

/-- Truth values of the older rules. -/
def isOldTruth (s : String) : Bool :=
  s ∈ ["y", "Y", "yes", "Yes", "YES", "on", "On", "ON",
    "n", "N", "no", "No", "NO", "off", "Off", "OFF"]

/-- One group of a sexagesimal number after its colon: a number below sixty. -/
def isSixtieth : List Char → Bool
  | [a] => a.isDigit
  | [a, b] => '0' ≤ a && a ≤ '5' && b.isDigit
  | _ => false

/-- The groups after the first of a sexagesimal number; the last may have a fraction. -/
def areSixtieths : List (List Char) → Bool
  | [] => false
  | [g] =>
    let whole := g.takeWhile (· != '.')
    isSixtieth whole
      && ((g.drop whole.length).drop 1).all fun c => c.isDigit || c == '_'
  | g :: gs => isSixtieth g && areSixtieths gs

/-- Splits at every colon. -/
def atColons : List Char → List (List Char)
  | [] => [[]]
  | c :: cs =>
    match atColons cs with
    | [] => [[c]]
    | g :: gs => if c = ':' then [] :: g :: gs else (c :: g) :: gs

/-- Numbers to the base sixty, such as `1:20`. -/
def isSexagesimal (s : String) : Bool :=
  let cs :=
    match s.toList with
    | '-' :: rest => rest
    | '+' :: rest => rest
    | cs => cs
  match atColons cs with
  | (d :: ds) :: groups =>
    d.isDigit && ds.all (fun c => c.isDigit || c == '_') && areSixtieths groups
  | _ => false

/-- Whether a text keeps its meaning without quotes. -/
def readsAsText (s : String) : Bool :=
  ofPlain s == .text && !isSexagesimal s && !isOldTruth s

end Scalar

end RulePlan.Yaml
