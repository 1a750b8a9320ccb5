import RulePlan.Yaml.Token.Gap

/-!
# RulePlan.Yaml.Token.Plain — scalars without quotes

A plain scalar ends before a colon or a hash that means structure, inside of brackets also before a
separator, and outside of them before a line that is indented too little.
-/

namespace RulePlan.Yaml.Plain

/-- Characters that end a plain scalar inside of brackets. -/
def isSeparator (c : Char) : Bool := c ∈ [',', '?', '[', ']', '{', '}']

/-- The characters up to a gap or to what means structure. -/
def word (inBrackets : Bool) : List Char → List Char
  | [] => []
  | c :: cs =>
    if isGap c || (c == ':' && isGap (cs.headD endMark)) || (inBrackets && isSeparator c) then []
    else c :: word inBrackets cs

/-- A plain scalar with the place after it, and whether a line break stands before that place. -/
structure Scalar where
  text : List Char
  broken : Bool
  after : Cursor

/-- Reads the words of a scalar; a gap stands before each but the first. -/
def words (inBrackets : Bool) (indent start : Nat) : (fuel : Nat) → (before : List Char) → Gap →
    Cursor → Except Fault Scalar
  | 0, before, gap, c => .ok ⟨before, gap.broken, c⟩
  | fuel + 1, before, gap, c =>
    let run := word inBrackets c.rest
    if c.atDocument || c.head == '#' || run.isEmpty then .ok ⟨before, gap.broken, c⟩
    else
      let text := before ++ gap.text ++ run
      let c := c.skips run.length
      if !isBlank c.head && !isBreak c.head then .ok ⟨text, false, c⟩
      else
        match Gap.read indent start (c.size + 1) {} c with
        | .error fault => .error fault
        | .ok (gap, c) =>
          if !inBrackets && decide (c.column < indent) then .ok ⟨text, gap.broken, c⟩
          else words inBrackets indent start fuel text gap c

/-- Reads a plain scalar whose further lines start at a column at least. -/
def read (inBrackets : Bool) (indent : Nat) (c : Cursor) : Except Fault Scalar :=
  words inBrackets indent c.line (c.size + 1) [] {} c

/-- Whether a plain scalar starts here. -/
def startsAt (inBrackets : Bool) (c : Cursor) : Bool :=
  let sign := c.head ∈ ['-', '?', ':', ',', '[', ']', '{', '}', '#', '&', '*', '!', '|', '>',
    '\x27', '\x22', '%', '@', '\x60']
  !(isGap c.head || sign) || (c.head == '-' && !isBlank (c.char 1))
    || (!inBrackets && (c.head == '?' || c.head == ':') && !isGap (c.char 1))

end RulePlan.Yaml.Plain
