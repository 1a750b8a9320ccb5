import RulePlan.Text.Printable

/-!
# RulePlan.Text.Quoted — text in quotes, with everything unprintable escaped

Messages show user text between double quotes, single characters between single ones. The quote and
the backslash are escaped, the seven control characters that have a letter get it, other characters
that do not print are written by number: two hexadecimal digits below 128, four in the basic plane,
eight above it. Plain text may also stand between backquotes, as it is.
-/

namespace RulePlan.Text.Quoted

/-- A lower-case hexadecimal digit. -/
def hexDigit (n : Nat) : Char := if n < 10 then Char.ofNat (48 + n) else Char.ofNat (87 + n)

/-- The last `width` hexadecimal digits of a number. -/
def hex : (width : Nat) → Nat → List Char
  | 0, _ => []
  | w + 1, n => hex w (n / 16) ++ [hexDigit (n % 16)]

/-- The letter that names a control character after a backslash. -/
def controlLetter? (c : Char) : Option Char :=
  match c.toNat with
  | 7 => some 'a'
  | 8 => some 'b'
  | 12 => some 'f'
  | 10 => some 'n'
  | 13 => some 'r'
  | 9 => some 't'
  | 11 => some 'v'
  | _ => none

/-- One character inside of given quotes. -/
def encodeChar (quote c : Char) : List Char :=
  if c = quote ∨ c = '\\' then ['\\', c]
  else if Printable.isPrintable c then [c]
  else
    match controlLetter? c with
    | some letter => ['\\', letter]
    | none =>
      if c.toNat < 128 then '\\' :: 'x' :: hex 2 c.toNat
      else if c.toNat < 0x10000 then '\\' :: 'u' :: hex 4 c.toNat
      else '\\' :: 'U' :: hex 8 c.toNat

/-- A text in double quotes. -/
def encode (s : String) : String :=
  String.ofList ('\x22' :: s.toList.flatMap (encodeChar '\x22') ++ ['\x22'])

/-- A character in single quotes. -/
def encodeSingle (c : Char) : String :=
  String.ofList ('\x27' :: encodeChar '\x27' c ++ ['\x27'])

/-- Whether a character may stand between backquotes. -/
def isRaw (c : Char) : Bool :=
  c == '\t' || (0x20 ≤ c.toNat && c.toNat != 0x60 && c.toNat != 0x7F && c.toNat != 0xFEFF)

/-- A text in backquotes, or in double quotes if it cannot stand there. -/
def encodeRaw (s : String) : String :=
  if s.toList.all isRaw then String.ofList ('\x60' :: s.toList ++ ['\x60']) else encode s

end RulePlan.Text.Quoted
