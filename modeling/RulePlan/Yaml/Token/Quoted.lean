import RulePlan.Yaml.Token.Gap

/-!
# RulePlan.Yaml.Token.Quoted — scalars in quotes

In single quotes a quote is written twice and all else stands for itself. In double quotes a
backslash starts an escape, and before a line break it removes the break. In both, gaps with line
breaks are folded.
-/

namespace RulePlan.Yaml.Quoted

/-- The character that a letter after a backslash stands for. -/
def named? (c : Char) : Option Char :=
  match c with
  | '0' => some (Char.ofNat 0x00)
  | 'a' => some (Char.ofNat 0x07)
  | 'b' => some (Char.ofNat 0x08)
  | 't' => some '\t'
  | '\t' => some '\t'
  | 'n' => some '\n'
  | 'v' => some (Char.ofNat 0x0B)
  | 'f' => some (Char.ofNat 0x0C)
  | 'r' => some '\r'
  | 'e' => some (Char.ofNat 0x1B)
  | ' ' => some ' '
  | '\x22' => some '\x22'
  | '\x27' => some '\x27'
  | '\\' => some '\\'
  | 'N' => some (Char.ofNat 0x85)
  | '_' => some (Char.ofNat 0xA0)
  | 'L' => some (Char.ofNat 0x2028)
  | 'P' => some (Char.ofNat 0x2029)
  | _ => none

/-- How many hexadecimal digits follow a letter after a backslash. -/
def codeSize? (c : Char) : Option Nat :=
  match c with
  | 'x' => some 2
  | 'u' => some 4
  | 'U' => some 8
  | _ => none

/-- The number that digits stand for. -/
def hexValue? (ds : List Char) : Option Nat :=
  ds.foldlM (fun n d => (digit? d).map (16 * n + ·)) 0

/-- Reads an escape at its backslash, in a scalar that starts on a line. -/
def escape (start : Nat) (c : Cursor) : Except Fault (Char × Cursor) :=
  match named? (c.char 1), codeSize? (c.char 1) with
  | some d, _ => .ok (d, c.skips 2)
  | none, some size =>
    let c := c.skips 2
    let ds := c.rest.take size
    match hexValue? ds with
    | some n =>
      if ds.length < size then .error (c.fault start .badEscapeDigits)
      else if n.isValidChar then .ok (Char.ofNat n, c.skips size)
      else .error (c.fault start .badEscapeCode)
    | none => .error (c.fault start .badEscapeDigits)
  | none, none => .error (c.fault start .unknownEscape)

/-- Reads up to a gap or the closing quote: what was read before it in reverse, and whether an
escaped line break ended it. -/
def word (quote : Char) (start : Nat) : (fuel : Nat) → (before : List Char) → Cursor →
    Except Fault (List Char × Bool × Cursor)
  | 0, before, c => .ok (before, false, c)
  | fuel + 1, before, c =>
    if isGap c.head then .ok (before, false, c)
    else if c.head == quote then
      if quote == '\x27' && c.char 1 == quote then
        word quote start fuel (quote :: before) (c.skips 2)
      else .ok (before, false, c)
    else if quote == '\x22' && c.head == '\\' then
      if isBreak (c.char 1) then .ok (before, true, c.skip.skipBreak)
      else
        match escape start c with
        | .error fault => .error fault
        | .ok (d, c) => word quote start fuel (d :: before) c
    else word quote start fuel (c.head :: before) c.skip

/-- Reads the inside of a scalar in quotes with its closing quote. -/
def inside (quote : Char) (start : Nat) : (fuel : Nat) → (before : List Char) → Cursor →
    Except Fault (List Char × Cursor)
  | 0, _, c => .error (c.fault start .unclosedQuotes)
  | fuel + 1, before, c =>
    if c.atDocument then .error (c.fault start .documentInQuotes)
    else if c.isEnd then .error (c.fault start .unclosedQuotes)
    else
      match word quote start (c.size + 1) before c with
      | .error fault => .error fault
      | .ok (before, broken, c) =>
        if c.head == quote then .ok (before.reverse, c.skip)
        else
          match Gap.read 0 start (c.size + 1) { broken } c with
          | .error fault => .error fault
          | .ok (gap, c) => inside quote start fuel (gap.text.reverse ++ before) c

/-- Reads a scalar in quotes. -/
def read (c : Cursor) : Except Fault (String × Cursor) :=
  (inside c.head c.line (c.size + 1) [] c.skip).map fun (cs, c) => (String.ofList cs, c)

end RulePlan.Yaml.Quoted
