import RulePlan.Yaml.Cursor
import RulePlan.Yaml.Token

/-!
# RulePlan.Yaml.Token.Property — anchors, tags and directives

An anchor names a node, a tag gives its type, and a directive at the start of a document says which
rules hold for it.
-/

namespace RulePlan.Yaml.Property

/-! ## Anchors -/

/-- Characters that may follow the name of an anchor. -/
def endsAnchor (c : Char) : Bool := isGap c || c ∈ ['?', ':', ',', ']', '}', '%', '@', '\x60']

/-- Reads the name after the sign of an anchor or a reference. -/
def anchor (c : Cursor) : Except Fault (String × Cursor) :=
  let (name, after) := c.skip.takeWhile isNameChar
  if name.isEmpty || !endsAnchor after.head then .error (after.fault c.line .badAnchor)
  else .ok (String.ofList name, after)

/-! ## Tags -/

/-- How many bytes a character has whose first byte is given. -/
def width (byte : Nat) : Nat :=
  if byte < 0x80 then 1
  else if 0xC0 ≤ byte ∧ byte < 0xE0 then 2
  else if 0xE0 ≤ byte ∧ byte < 0xF0 then 3
  else if 0xF0 ≤ byte ∧ byte < 0xF8 then 4
  else 0

/-- A byte written as a percent sign with two digits. -/
def octet? (c : Cursor) : Option Nat :=
  match digit? (c.char 1), digit? (c.char 2) with
  | some a, some b => if c.head == '%' then some (16 * a + b) else none
  | _, _ => none

/-- Reads the bytes of a character after its first. -/
def octets (start : Nat) : (more : Nat) → Cursor → Except Fault (List Char × Cursor)
  | 0, c => .ok ([], c)
  | more + 1, c =>
    match octet? c with
    | some b =>
      if 0x80 ≤ b ∧ b < 0xC0 then
        (octets start more (c.skips 3)).map fun (cs, c) => (Char.ofNat b :: cs, c)
      else .error (c.fault start .badTagEscape)
    | none => .error (c.fault start .badTagEscape)

/-- Reads a character written as bytes. -/
def escaped (start : Nat) (c : Cursor) : Except Fault (List Char × Cursor) :=
  match octet? c with
  | some b =>
    if width b = 0 then .error (c.fault start .badTagEscape)
    else (octets start (width b - 1) (c.skips 3)).map fun (cs, c) => (Char.ofNat b :: cs, c)
  | none => .error (c.fault start .badTagEscape)

/-- Reads the characters of a tag. -/
def tagChars (start : Nat) : (fuel : Nat) → (before : List Char) → Cursor →
    Except Fault (List Char × Cursor)
  | 0, before, c => .ok (before, c)
  | fuel + 1, before, c =>
    if c.head == '%' then
      match escaped start c with
      | .error fault => .error fault
      | .ok (cs, c) => tagChars start fuel (before ++ cs) c
    else if isNameChar c.head || isTagPunctuation c.head then
      tagChars start fuel (before ++ [c.head]) c.skip
    else .ok (before, c)

/-- Reads a tag after what was already read of it; it must not be empty. -/
def uri (start : Nat) (before : List Char) (c : Cursor) : Except Fault (List Char × Cursor) :=
  match tagChars start (c.size + 1) before c with
  | .error fault => .error fault
  | .ok (cs, after) =>
    if after.index == c.index && before.isEmpty then .error (after.fault start .missingTag)
    else .ok (cs, after)

/-- Reads a handle: an exclamation mark, a name and, if there is one, a second mark. -/
def handle (c : Cursor) : List Char × Cursor :=
  let (name, after) := c.skip.takeWhile isNameChar
  if after.head == '!' then ('!' :: name ++ ['!'], after.skip) else ('!' :: name, after)

/-- Reads a tag that stands in angles. -/
def verbatim (start : Nat) (c : Cursor) : Except Fault (TagName × Cursor) :=
  match uri start [] (c.skips 2) with
  | .error fault => .error fault
  | .ok (cs, after) =>
    if after.head == '>' then .ok (⟨"", String.ofList cs⟩, after.skip)
    else .error (after.fault start .unclosedTag)

/-- Reads a tag with a handle of its own, or with that of one exclamation mark. A mark alone is a
tag without a handle. -/
def shorthand (start : Nat) (c : Cursor) : Except Fault (TagName × Cursor) :=
  let (h, after) := handle c
  if 1 < h.length ∧ h.getLast? = some '!' then
    (uri start [] after).map fun (cs, c) => (⟨String.ofList h, String.ofList cs⟩, c)
  else
    match tagChars start (after.size + 1) (h.drop 1) after with
    | .error fault => .error fault
    | .ok ([], c) => .ok (⟨"", "!"⟩, c)
    | .ok (cs, c) => .ok (⟨"!", String.ofList cs⟩, c)

/-- Reads a tag, which a gap must follow. -/
def tag (c : Cursor) : Except Fault (TagName × Cursor) :=
  match if c.char 1 == '<' then verbatim c.line c else shorthand c.line c with
  | .error fault => .error fault
  | .ok (name, after) =>
    if isGap after.head then .ok (name, after)
    else .error (after.fault c.line .missingBlankOrLineEnd)

/-! ## Directives -/

/-- Reads a number of one or two digits. -/
def versionNumber (start : Nat) (c : Cursor) : Except Fault (Nat × Cursor) :=
  let (ds, after) := c.takeWhile Char.isDigit
  if ds.isEmpty then .error (after.fault start .missingVersion)
  else if 2 < ds.length then .error (after.fault start .longVersion)
  else .ok (Text.Decimal.value ds, after)

/-- Reads two numbers with a point between them. -/
def version (start : Nat) (c : Cursor) : Except Fault (Token.Kind × Cursor) :=
  match versionNumber start c with
  | .error fault => .error fault
  | .ok (major, c) =>
    if c.head == '.' then
      (versionNumber start c.skip).map fun (minor, c) => (.version major minor, c)
    else .error (c.fault start .missingVersionPoint)

/-- Reads a handle and the tag it stands for. -/
def tagPrefix (start : Nat) (c : Cursor) : Except Fault (Token.Kind × Cursor) :=
  if c.head != '!' then .error (c.fault start .missingExclamation)
  else
    let (h, c) := handle c
    if h.length ≠ 1 ∧ h.getLast? ≠ some '!' then
      .error (c.fault start .missingExclamation)
    else if !isBlank c.head then .error (c.fault start .missingBlank)
    else
      match uri start [] (c.skipWhile isBlank) with
      | .error fault => .error fault
      | .ok (stem, c) =>
        if isGap c.head then .ok (.tagPrefix (String.ofList h) (String.ofList stem), c)
        else .error (c.fault start .missingBlankOrLineEnd)

/-- Reads a directive with the end of its line. -/
def directive (c : Cursor) : Except Fault (Token.Kind × Cursor) :=
  let start := c.line
  let (name, after) := c.skip.takeWhile isNameChar
  if name.isEmpty then .error (after.fault start .missingDirectiveName)
  else if !isGap after.head then .error (after.fault start .badDirectiveName)
  else
    let value :=
      if name = ['Y', 'A', 'M', 'L'] then version start (after.skipWhile isBlank)
      else if name = ['T', 'A', 'G'] then tagPrefix start (after.skipWhile isBlank)
      else .error (after.fault start .unknownDirective)
    match value with
    | .error fault => .error fault
    | .ok (kind, c) =>
      let c := c.skipWhile isBlank
      let c := if c.head == '#' then c.skipWhile (!endsLine ·) else c
      if endsLine c.head then .ok (kind, c.skipBreak) else .error (c.fault start .missingLineEnd)

end RulePlan.Yaml.Property
