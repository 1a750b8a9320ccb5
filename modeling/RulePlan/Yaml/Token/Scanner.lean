import RulePlan.Yaml.Token.Block
import RulePlan.Yaml.Token.Plain
import RulePlan.Yaml.Token.Property
import RulePlan.Yaml.Token.Quoted

/-!
# RulePlan.Yaml.Token.Scanner — the tokens of a text

That a node is a key shows only at the colon after it. So tokens wait in a queue: where a key may
start, the scanner remembers the number of the next token, and when the colon comes it puts a token
for the key, and if need be one for the start of a mapping, before that number. A key must be
followed by its colon on the same line and within 1024 characters.

A token leaves the queue when two others wait behind it and it is no longer a possible key. A fault
ends the tokens; those that still wait are lost.
-/

namespace RulePlan.Yaml

/-- A place where a key may have started. It must be one if it stands at the column of a mapping. -/
structure PossibleKey where
  possible : Bool := false
  required : Bool := false
  number : Nat := 0
  index : Nat := 0
  line : Nat := 0
  column : Nat := 0
deriving Repr

/-- The state of scanning. `depth` is the number of brackets around the present place, and `keys`
has the possible key of every level, the innermost first; `owners` says at which level the token of
a number may be a key, for tokens that have not left the queue. `columns` are those of the open
blocks, the innermost first. The last `unreadable` characters of the text must not be reached. -/
structure Scanner where
  cursor : Cursor
  marked : Bool := false
  unreadable : Nat := 0
  queue : List Token := [⟨.streamStart, 0⟩]
  released : Nat := 0
  keyAllowed : Bool := true
  columns : List Nat := []
  depth : Nat := 0
  keys : List PossibleKey := [{}]
  owners : List (Nat × Nat) := []

namespace Scanner

/-- The greatest depth of nesting. -/
def maxDepth : Nat := 10000

/-- The longest key. -/
def maxKeySize : Nat := 1024

/-- Whether the present place is inside of brackets. -/
def inBrackets (s : Scanner) : Bool := 0 < s.depth

/-- Adds a token at the end of the queue. -/
def push (s : Scanner) (kind : Token.Kind) (line : Nat) : Scanner :=
  { s with queue := s.queue ++ [⟨kind, line⟩] }

/-- Adds a token before the one of a number. -/
def insert (s : Scanner) (number : Nat) (kind : Token.Kind) (line : Nat) : Scanner :=
  let place := number - s.released
  { s with queue := s.queue.take place ++ ⟨kind, line⟩ :: s.queue.drop place }

/-- The number of the next token. -/
def nextNumber (s : Scanner) : Nat := s.released + s.queue.length

/-! ## Possible keys -/

/-- A key that has grown too long is no longer possible; if one is required there, that is a
fault. -/
def checkKey (c : Cursor) (k : PossibleKey) : Except Fault PossibleKey :=
  if k.possible && (decide (k.line < c.line) || decide (k.index + maxKeySize < c.index)) then
    if k.required then .error (c.fault k.line .missingColon) else .ok { k with possible := false }
  else .ok k

/-- Gives up the possible key of the present level. -/
def removeKey (s : Scanner) : Except Fault Scanner :=
  match s.keys with
  | k :: keys =>
    if !k.possible then .ok s
    else if k.required then .error (s.cursor.fault k.line .missingColon)
    else
      .ok { s with
        keys := { k with possible := false } :: keys
        owners := s.owners.filter (·.1 != k.number) }
  | [] => .ok s

/-- Remembers that a key may start here. -/
def saveKey (s : Scanner) : Except Fault Scanner :=
  if !s.keyAllowed then .ok s
  else
    match s.removeKey with
    | .error fault => .error fault
    | .ok s =>
      let k : PossibleKey :=
        { possible := true
          required := !s.inBrackets && s.columns.head? == some s.cursor.column
          number := s.nextNumber
          index := s.cursor.index
          line := s.cursor.line
          column := s.cursor.column }
      .ok { s with
        keys := k :: s.keys.drop 1
        owners := (k.number, s.depth) :: s.owners.filter (·.1 != k.number) }

/-! ## Blocks -/

/-- Starts a block at a column, unless one is open there. Its token stands before the one of a
number, or at the end. -/
def openBlock (s : Scanner) (column : Nat) (number : Option Nat) (kind : Token.Kind) (line : Nat) :
    Except Fault Scanner :=
  if s.inBrackets || !(s.columns.head?.all fun open_ => decide (open_ < column)) then .ok s
  else if maxDepth ≤ s.columns.length then .error (s.cursor.fault line .tooDeep)
  else
    let s := { s with columns := column :: s.columns }
    match number with
    | some n => .ok (s.insert n kind line)
    | none => .ok (s.push kind line)

/-- Ends the blocks whose column does not satisfy a test. -/
def closeBlocks (s : Scanner) (stays : Nat → Bool) : Scanner :=
  if s.inBrackets then s
  else
    let closed := s.columns.takeWhile (!stays ·)
    { s with
      columns := s.columns.drop closed.length
      queue := s.queue ++ closed.map fun _ => ⟨.blockEnd, s.cursor.line⟩ }

/-! ## Tokens -/

/-- Takes in a token of some characters of the line. -/
def sign (s : Scanner) (kind : Token.Kind) (size : Nat) (keyAllowed : Bool) : Scanner :=
  { (s.push kind s.cursor.line) with cursor := s.cursor.skips size, keyAllowed }

/-- Takes in a token that was read up to a place. -/
def take (s : Scanner) (kind : Token.Kind) (keyAllowed : Bool) (after : Cursor) : Scanner :=
  { (s.push kind s.cursor.line) with cursor := after, keyAllowed }

/-- The end of the text. -/
def streamEnd (s : Scanner) : Except Fault Scanner :=
  let c := s.cursor
  let c := if c.column = 0 then c else { c with column := 0, line := c.line + 1 }
  let s := closeBlocks { s with cursor := c } fun _ => false
  s.removeKey.map fun s => { (s.push .streamEnd c.line) with keyAllowed := false }

/-- A directive. -/
def directive (s : Scanner) : Except Fault Scanner :=
  match (s.closeBlocks fun _ => false).removeKey with
  | .error fault => .error fault
  | .ok s => (Property.directive s.cursor).map fun (kind, after) => s.take kind false after

/-- The start or end of a document. -/
def documentMark (s : Scanner) (kind : Token.Kind) : Except Fault Scanner :=
  (s.closeBlocks fun _ => false).removeKey.map fun s => s.sign kind 3 false

/-- An opening bracket or brace. -/
def openBracket (s : Scanner) (kind : Token.Kind) : Except Fault Scanner :=
  match s.saveKey with
  | .error fault => .error fault
  | .ok s =>
    if maxDepth ≤ s.depth then .error (s.cursor.fault s.cursor.line .tooDeep)
    else
      .ok ({ s with
        depth := s.depth + 1
        keys := { number := s.nextNumber } :: s.keys }.sign kind 1 true)

/-- A closing bracket or brace. -/
def closeBracket (s : Scanner) (kind : Token.Kind) : Except Fault Scanner :=
  s.removeKey.map fun s =>
    let s :=
      match s.keys with
      | k :: outer :: keys =>
        { s with
          depth := s.depth - 1
          keys := outer :: keys
          owners := s.owners.filter (·.1 != k.number) }
      | _ => s
    s.sign kind 1 false

/-- A comma. -/
def comma (s : Scanner) : Except Fault Scanner := s.removeKey.map fun s => s.sign .comma 1 true

/-- The dash of an item. -/
def dash (s : Scanner) : Except Fault Scanner :=
  let c := s.cursor
  if !s.inBrackets && !s.keyAllowed then .error (c.fault c.line .strayEntry)
  else
    match s.openBlock c.column none .listStart c.line with
    | .error fault => .error fault
    | .ok s => s.removeKey.map fun s => s.sign .dash 1 true

/-- The mark of a key of any shape. -/
def keyMark (s : Scanner) : Except Fault Scanner :=
  let c := s.cursor
  if !s.inBrackets && !s.keyAllowed then .error (c.fault c.line .strayKey)
  else
    match s.openBlock c.column none .mapStart c.line with
    | .error fault => .error fault
    | .ok s => s.removeKey.map fun s => s.sign .key 1 !s.inBrackets

/-- The colon after a key that has just been read. -/
def valueOfKey (s : Scanner) (k : PossibleKey) : Except Fault Scanner :=
  ((s.insert k.number .key k.line).openBlock k.column (some k.number) .mapStart k.line).map fun s =>
    { s with
      keys := { k with possible := false } :: s.keys.drop 1
      owners := s.owners.filter (·.1 != k.number) }.sign .value 1 false

/-- The colon after a key of any shape. -/
def valueAlone (s : Scanner) : Except Fault Scanner :=
  let c := s.cursor
  if !s.inBrackets && !s.keyAllowed then .error (c.fault c.line .strayValue)
  else
    (s.openBlock c.column none .mapStart c.line).map fun s => s.sign .value 1 !s.inBrackets

/-- A colon. -/
def value (s : Scanner) : Except Fault Scanner :=
  match s.keys with
  | k :: keys =>
    match checkKey s.cursor k with
    | .error fault => .error fault
    | .ok k => if k.possible then s.valueOfKey k else { s with keys := k :: keys }.valueAlone
  | [] => s.valueAlone

/-- A token that may be a key, or its start. -/
def mayBeKey (s : Scanner) (read : Cursor → Except Fault (Token.Kind × Cursor)) :
    Except Fault Scanner :=
  match s.saveKey with
  | .error fault => .error fault
  | .ok s => (read s.cursor).map fun (kind, after) => s.take kind false after

/-- A scalar as a block of lines. -/
def block (s : Scanner) : Except Fault Scanner :=
  match s.removeKey with
  | .error fault => .error fault
  | .ok s =>
    (Block.read s.columns.head? s.cursor).map fun (text, after) =>
      s.take (.scalar false text) true after

/-- A plain scalar. -/
def plain (s : Scanner) : Except Fault Scanner :=
  match s.saveKey with
  | .error fault => .error fault
  | .ok s =>
    let indent := match s.columns.head? with
      | some n => n + 1
      | none => 0
    (Plain.read s.inBrackets indent s.cursor).map fun p =>
      s.take (.scalar true (String.ofList p.text)) p.broken p.after

/-- A token that starts with a sign of its own or is a scalar. -/
def inLine (s : Scanner) : Except Fault Scanner :=
  let c := s.cursor
  let alone := s.inBrackets || isGap (c.char 1)
  if c.head == '[' then s.openBracket .bracketOpen
  else if c.head == '{' then s.openBracket .braceOpen
  else if c.head == ']' then s.closeBracket .bracketClose
  else if c.head == '}' then s.closeBracket .braceClose
  else if c.head == ',' then s.comma
  else if c.head == '-' && isGap (c.char 1) then s.dash
  else if c.head == '?' && alone then s.keyMark
  else if c.head == ':' && alone then s.value
  else if c.head == '*' then
    s.mayBeKey fun c => (Property.anchor c).map fun (name, c) => (.reference name, c)
  else if c.head == '&' then
    s.mayBeKey fun c => (Property.anchor c).map fun (name, c) => (.anchor name, c)
  else if c.head == '!' then
    s.mayBeKey fun c => (Property.tag c).map fun (name, c) => (.tag name, c)
  else if (c.head == '|' || c.head == '>') && !s.inBrackets then s.block
  else if c.head == '\x27' || c.head == '\x22' then
    s.mayBeKey fun c => (Quoted.read c).map fun (text, c) => (.scalar false text, c)
  else if Plain.startsAt s.inBrackets c then s.plain
  else .error (c.fault c.line .strayCharacter)

/-- Whether a dash is the last token of the queue. -/
def endsWithDash (s : Scanner) : Bool :=
  match s.queue.getLast? with
  | some t => t.kind == .dash
  | none => false

/-- Takes in the next token of a text, with a comment on its line unless it is a dash. -/
def fetchToken (s : Scanner) : Except Fault Scanner :=
  let c := s.cursor
  if c.isEnd then s.streamEnd
  else if c.column = 0 ∧ c.head = '%' then s.directive
  else if c.startsDocument '-' then s.documentMark .documentStart
  else if c.startsDocument '.' then s.documentMark .documentEnd
  else
    s.inLine.map fun s =>
      if s.endsWithDash then s else { s with cursor := s.cursor.skipTrailingComment }

/-- Takes in the next token and what stands before it. -/
def fetch (s : Scanner) : Except Fault Scanner :=
  let unreachable (s : Scanner) (ahead : Nat) : Bool :=
    0 < s.unreadable && s.cursor.size - s.cursor.index < s.unreadable + ahead
  let (keyAllowed, c) :=
    s.cursor.skipToToken s.marked s.inBrackets (s.cursor.size + 1) s.keyAllowed
  let s := closeBlocks { s with cursor := c, keyAllowed } (· ≤ c.column)
  if unreachable s 4 then .error { problem := .control }
  else
    match s.fetchToken with
    | .error fault => .error fault
    | .ok s => if unreachable s 1 then .error { problem := .control } else .ok s

/-! ## The sequence of tokens -/

/-- Whether the first token of the queue may still be a key; asking may show that it is none. -/
def headMayBeKey (s : Scanner) : Except Fault (Bool × Scanner) :=
  match s.owners.lookup s.released with
  | none => .ok (false, s)
  | some level =>
    let place := s.depth - level
    match s.keys.drop place with
    | [] => .ok (false, s)
    | k :: outer =>
      (checkKey s.cursor k).map fun k =>
        (k.possible, { s with keys := s.keys.take place ++ k :: outer })

/-- Lets the first token go and leaves a queue behind. -/
def release (s : Scanner) (queue : List Token) : Scanner :=
  { s with
    queue
    released := s.released + 1
    owners := s.owners.filter fun (number, _) => decide (s.released < number) }

/-- The tokens that leave the queue, in order, and the fault that ended them, if any. -/
def run : (fuel : Nat) → Scanner → List Token × Option Fault
  | 0, _ => ([], none)
  | fuel + 1, s =>
    let fetched (s : Scanner) : List Token × Option Fault :=
      match s.fetch with
      | .error fault => ([], some fault)
      | .ok s => run fuel s
    match s.queue with
    | t :: a :: b :: queue =>
      match s.headMayBeKey with
      | .error fault => ([], some fault)
      | .ok (true, s) => fetched s
      | .ok (false, s) =>
        if t.kind == .streamEnd then ([t], none)
        else
          let (ts, fault) := run fuel (s.release (a :: b :: queue))
          (t :: ts, fault)
    | _ => fetched s

end Scanner

namespace Token

/-- How many bytes of a text are looked at together. -/
def portion : Nat := 512

/-- How many characters at the end of a text cannot be read: those from the first portion on that
holds a character that may not stand in a text. -/
def unreadable : (fuel : Nat) → (room : Nat) → (portionStart : List Char) → List Char → Nat
  | 0, _, _, _ => 0
  | _ + 1, _, _, [] => 0
  | fuel + 1, room, portionStart, c :: cs =>
    if room < c.utf8Size then unreadable fuel portion (c :: cs) (c :: cs)
    else if isAllowed c then unreadable fuel (room - c.utf8Size) portionStart cs
    else portionStart.length

/-- The mark that may stand before a text. -/
def byteOrderMark : Char := Char.ofNat 0xFEFF

/-- The tokens of a text, and the fault that ends them, if any. A byte order mark before the text is
passed. -/
def scan (s : String) : List Token × Option Fault :=
  let cs := s.toList
  let (room, cs) :=
    match cs with
    | c :: rest => if c == byteOrderMark then (portion - c.utf8Size, rest) else (portion, c :: rest)
    | [] => (portion, [])
  let scanner : Scanner :=
    { cursor := { rest := cs, size := cs.length }
      marked := cs.head? == some byteOrderMark
      unreadable := unreadable (2 * cs.length + 1) room cs cs }
  scanner.run (16 * (cs.length + 8))

end Token

end RulePlan.Yaml
