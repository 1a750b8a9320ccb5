import RulePlan.Text.Quoted
import RulePlan.Yaml.CharClass
import RulePlan.Yaml.Scalar

/-!
# RulePlan.Yaml.Style — how a text is written as a scalar

A text of one line stands as it is if it then reads back as the same text. If it would read as
another kind of value it goes into double quotes; if its characters would be taken for structure,
into single quotes; if it holds characters that do not print, into double quotes with escapes. A
text of several lines is written as a block of its lines.
-/

namespace RulePlan.Yaml

/-- The ways to write a text. -/
inductive Style where
  | plain
  | single
  | double
  | literal
deriving DecidableEq, Repr

namespace Style

/-- Characters that may stand for themselves: the printing ones of the basic plane, and the end of a
line. -/
def isPrintable (c : Char) : Bool :=
  let n := c.toNat
  n == 0x0A || (0x20 ≤ n && n ≤ 0x7E) || (0xA0 ≤ n && n ≤ 0xFFFD && n != 0xFEFF)

/-- Whether a character other than a tab needs an escape. -/
def hasSpecial (cs : List Char) : Bool := cs.any fun c => c != '\t' && !isPrintable c

/-- Whether two neighbours satisfy two tests. -/
def hasPair (first second : Char → Bool) : List Char → Bool
  | a :: b :: cs => (first a && second b) || hasPair first second (b :: cs)
  | _ => false

/-- The end of the text or a blank. -/
def blankNext : List Char → Bool
  | [] => true
  | c :: _ => isBlank c

/-- Characters that cannot start a plain scalar. -/
def isIndicator (c : Char) : Bool :=
  c ∈ ['#', ',', '[', ']', '{', '}', '&', '*', '!', '|', '>', '\x27', '\x22', '%', '@', '\x60']

/-- A colon before a blank or at the end, or a hash after a blank. -/
def hasStructure : (before : Char) → List Char → Bool
  | _, [] => false
  | before, c :: cs =>
    (c == ':' && blankNext cs) || (c == '#' && (isBlank before || isBreak before))
      || hasStructure c cs

/-- Whether the characters of a text would be taken for structure. -/
def looksStructured : List Char → Bool
  | [] => false
  | c :: cs =>
    (c :: cs).take 3 == ['-', '-', '-'] || (c :: cs).take 3 == ['.', '.', '.']
      || isIndicator c || ((c == '-' || c == '?' || c == ':') && blankNext cs)
      || hasStructure c cs

/-- Whether a text starts or ends with a character of a kind. -/
def touches (test : Char → Bool) (cs : List Char) : Bool :=
  cs.head?.any test || cs.getLast?.any test

/-- Whether a text can be written without quotes. -/
def allowsPlain (cs : List Char) : Bool :=
  !touches (· == ' ') cs && !cs.any isBreak && !cs.contains '\t' && !hasSpecial cs
    && !looksStructured cs

/-- Whether a text can be written in single quotes. -/
def allowsSingle (cs : List Char) : Bool :=
  !hasPair isBreak (· == ' ') cs && !hasPair (· == ' ') isBreak cs && !cs.contains '\t'
    && !hasSpecial cs

/-- Whether a text can be written as a block of lines. -/
def allowsLiteral (cs : List Char) : Bool :=
  !(cs.getLast? == some ' ') && !hasPair (· == ' ') isBreak cs && !hasSpecial cs

/-- The way a text is written. -/
def ofText (s : String) : Style :=
  let cs := s.toList
  if cs.contains '\n' then if allowsLiteral cs then .literal else .double
  else if !Scalar.readsAsText s then .double
  else if allowsPlain cs then .plain
  else if allowsSingle cs then .single
  else .double

/-! ## Quotes -/

/-- Characters with every single quote written twice. -/
def doubledQuotes (cs : List Char) : List Char :=
  cs.flatMap fun c => if c = '\x27' then ['\x27', '\x27'] else [c]

/-- An upper-case hexadecimal digit. -/
def hexDigit (n : Nat) : Char := if n < 10 then Char.ofNat (48 + n) else Char.ofNat (55 + n)

/-- The last `width` hexadecimal digits of a number. -/
def hex : (width : Nat) → Nat → List Char
  | 0, _ => []
  | w + 1, n => hex w (n / 16) ++ [hexDigit (n % 16)]

/-- The letter that stands for a character after a backslash. -/
def letter? (c : Char) : Option Char :=
  match c.toNat with
  | 0x00 => some '0'
  | 0x07 => some 'a'
  | 0x08 => some 'b'
  | 0x09 => some 't'
  | 0x0A => some 'n'
  | 0x0B => some 'v'
  | 0x0C => some 'f'
  | 0x0D => some 'r'
  | 0x1B => some 'e'
  | 0x22 => some '\x22'
  | 0x5C => some '\\'
  | 0x85 => some 'N'
  | 0xA0 => some '_'
  | 0x2028 => some 'L'
  | 0x2029 => some 'P'
  | _ => none

/-- One character inside double quotes; `all` says that every character is escaped. -/
def escape (all : Bool) (c : Char) : List Char :=
  if !all && isPrintable c && !isBreak c && c != '\x22' && c != '\\' then [c]
  else
    match letter? c with
    | some l => ['\\', l]
    | none =>
      let n := c.toNat
      if n ≤ 0xFF then '\\' :: 'x' :: hex 2 n
      else if n ≤ 0xFFFF then '\\' :: 'u' :: hex 4 n
      else '\\' :: 'U' :: hex 8 n

/-- A text in double quotes. In a text that starts with a byte order mark every character is
escaped. -/
def doubleQuoted (cs : List Char) : List Char :=
  '\x22' :: cs.flatMap (escape (cs.head?.any fun c => c.toNat == 0xFEFF)) ++ ['\x22']

end Style

end RulePlan.Yaml
