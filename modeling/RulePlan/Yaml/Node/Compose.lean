import RulePlan.Yaml.Node
import RulePlan.Yaml.Token.Scanner

/-!
# RulePlan.Yaml.Node.Compose — trees from tokens

The tokens of the first document of a text make a tree. A node may be named by an anchor, and the
name stands for the latest node that bears it. Where a node is missing, it is an empty plain scalar.
-/

namespace RulePlan.Yaml

/-- What a name stands for: a node, or one that is still being read. -/
inductive Named where
  | reading (mark : Nat)
  | read (node : Node)

/-- The state of composing: the tokens to come, the number of those passed, the fault that ends
them, the names with the latest first, and what the handles of tags stand for. -/
structure Composer where
  tokens : List Token
  passed : Nat := 0
  ending : Fault := { problem := .missingContent }
  names : List (String × Named) := []
  handles : List (String × String) := []

namespace Composer

/-- The next token. -/
def peek (s : Composer) : Except Fault Token :=
  match s.tokens with
  | t :: _ => .ok t
  | [] => .error s.ending

/-- Passes the next token. -/
def skip (s : Composer) : Composer := { s with tokens := s.tokens.drop 1, passed := s.passed + 1 }

/-- Whether the next token is one of some kinds. -/
def isAt (s : Composer) (kinds : List Token.Kind) : Except Fault Bool :=
  s.peek.map fun t => kinds.contains t.kind

/-- A fault in the order of tokens, of a construct that starts on a line. -/
def fail (s : Composer) (start : Nat) (problem : Problem) : Except Fault α :=
  match s.peek with
  | .ok t => .error (.inOrder problem start t.line)
  | .error fault => .error fault

/-! ## Properties -/

/-- What stands before the content of a node: its name and tag, if it has them. -/
structure Properties where
  anchor : Option String := none
  tag : Option String := none

/-- The stem of the types that every text knows. -/
def commonStem : String := "tag:yaml.org,2002:"

/-- A tag in its short form. -/
def shortTag (tag : String) : String :=
  if commonStem.toList.isPrefixOf tag.toList then
    "!!" ++ String.ofList (tag.toList.drop commonStem.length)
  else tag

/-- The tag that a written tag stands for. -/
def resolveTag (s : Composer) (start line : Nat) (name : TagName) : Except Fault String :=
  if name.handle = "" then .ok name.suffix
  else
    match s.handles.lookup name.handle with
    | some stem => .ok (stem ++ name.suffix)
    | none => .error (.inOrder .undefinedTag start line)

/-- Reads an anchor, if there is one. -/
def anchor? (s : Composer) : Except Fault (Option String × Composer) :=
  s.peek.map fun t =>
    match t.kind with
    | .anchor name => (some name, s.skip)
    | _ => (none, s)

/-- Reads a tag, if there is one. -/
def tag? (s : Composer) : Except Fault (Option (TagName × Nat) × Composer) :=
  s.peek.map fun t =>
    match t.kind with
    | .tag name => (some (name, t.line), s.skip)
    | _ => (none, s)

/-- Reads an anchor and a tag in either order; the content must follow. -/
def properties (s : Composer) : Except Fault (Properties × Composer) := do
  let start := (← s.peek).line
  let (anchor, s) ← s.anchor?
  let (tag, s) ← s.tag?
  let (anchor, s) ← if anchor.isSome || tag.isNone then pure (anchor, s) else s.anchor?
  let _ ← s.peek
  match tag with
  | some (name, line) => return ({ anchor, tag := some (← s.resolveTag start line name) }, s)
  | none => return ({ anchor }, s)

/-- A scalar with a tag: no tag and the tag of one exclamation mark leave its type open. -/
def scalarNode (p : Properties) (plain : Bool) (text : String) : Node :=
  match p.tag with
  | some tag =>
    if tag ≠ "!" then .tagged (shortTag tag) text else if plain then .plain text else .quoted text
  | none => if plain then .plain text else .quoted text

/-- The node for one that is missing. -/
def absent : Node := .plain ""

/-! ## Names -/

/-- Gives a name to a node. -/
def bind (s : Composer) (anchor : Option String) (named : Named) : Composer :=
  match anchor with
  | some name => { s with names := (name, named) :: s.names }
  | none => s

/-- A node that was named while it was being read has been read. -/
def finish (s : Composer) (mark : Nat) (n : Node) : Composer :=
  { s with
    names := s.names.map fun (name, named) =>
      match named with
      | .reading m => (name, if m = mark then .read n else .reading m)
      | .read old => (name, .read old) }

/-- The node that a name refers to. -/
def deref (s : Composer) (name : String) : Except Fault Node :=
  match s.names.lookup name with
  | some (.read n) => .ok (.reference name n)
  | some (.reading _) => .ok (.cycle name)
  | none => .error { problem := .unknownAnchor name }

/-! ## Nodes -/

/-- What ends a missing node of a list in block form. -/
def afterItem : List Token.Kind := [.dash, .blockEnd]

/-- What ends a missing key or value of a mapping in block form. -/
def afterEntry : List Token.Kind := [.key, .value, .blockEnd]

mutual

/-- Reads a node. In block form it may start a block, and where `flush` is set, items whose dashes
stand at the column of the key. -/
def node : (fuel : Nat) → (inBlock flush : Bool) → Composer → Except Fault (Node × Composer)
  | 0, _, _, s => s.fail 0 .missingContent
  | fuel + 1, inBlock, flush, s => do
    let first ← s.peek
    match first.kind with
    | .reference name => return (← s.deref name, s.skip)
    | _ =>
      let (p, s) ← s.properties
      let t ← s.peek
      let mark := s.passed
      let opened := s.bind p.anchor (.reading mark)
      let close : Node × Composer → Node × Composer := fun (n, s) => (n, s.finish mark n)
      match t.kind with
      | .scalar plain text =>
        let n := scalarNode p plain text
        return (n, s.skip.bind p.anchor (.read n))
      | .bracketOpen => return close (← bracketItems fuel t.line true opened.skip [])
      | .braceOpen => return close (← braceEntries fuel t.line true opened.skip [])
      | kind =>
        if flush && kind == .dash then return close (← flushItems fuel opened [])
        else if inBlock && kind == .listStart then
          return close (← blockItems fuel t.line opened.skip [])
        else if inBlock && kind == .mapStart then
          return close (← blockEntries fuel t.line opened.skip [])
        else if p.anchor.isSome || p.tag.isSome then
          let n := scalarNode p true ""
          return (n, s.bind p.anchor (.read n))
        else s.fail first.line .missingContent

/-- Reads the items of a list in block form. -/
def blockItems :
    (fuel start : Nat) → Composer → (items : List Node) → Except Fault (Node × Composer)
  | 0, start, s, _ => s.fail start .missingDash
  | fuel + 1, start, s, items => do
    if ← s.isAt [.blockEnd] then return (.list items.reverse, s.skip)
    if !(← s.isAt [.dash]) then s.fail start .missingDash
    else if ← s.skip.isAt afterItem then blockItems fuel start s.skip (absent :: items)
    else
      let (n, s) ← node fuel true false s.skip
      blockItems fuel start s (n :: items)

/-- Reads the items of a list whose dashes stand at the column of its key. -/
def flushItems : (fuel : Nat) → Composer → (items : List Node) → Except Fault (Node × Composer)
  | 0, s, _ => s.fail 0 .missingDash
  | fuel + 1, s, items => do
    if !(← s.isAt [.dash]) then return (.list items.reverse, s)
    if ← s.skip.isAt (.dash :: afterEntry) then flushItems fuel s.skip (absent :: items)
    else
      let (n, s) ← node fuel true false s.skip
      flushItems fuel s (n :: items)

/-- Reads a key or value of a mapping in block form, which may be missing. -/
def blockPart : (fuel : Nat) → Composer → Except Fault (Node × Composer)
  | 0, s => s.fail 0 .missingContent
  | fuel + 1, s => do
    if ← s.isAt afterEntry then return (absent, s) else node fuel true true s

/-- Reads the entries of a mapping in block form. -/
def blockEntries : (fuel start : Nat) → Composer → (entries : List (Node × Node)) →
    Except Fault (Node × Composer)
  | 0, start, s, _ => s.fail start .missingKey
  | fuel + 1, start, s, entries => do
    if ← s.isAt [.blockEnd] then return (.map entries.reverse, s.skip)
    if !(← s.isAt [.key]) then s.fail start .missingKey
    else
      let (k, s) ← blockPart fuel s.skip
      let (v, s) ← if ← s.isAt [.value] then blockPart fuel s.skip else pure (absent, s)
      blockEntries fuel start s ((k, v) :: entries)

/-- Reads the value of a key inside of brackets, which may be missing before a comma or the end. -/
def bracketValue : (fuel : Nat) → (close : Token.Kind) → Composer → Except Fault (Node × Composer)
  | 0, _, s => s.fail 0 .missingContent
  | fuel + 1, close, s => do
    if !(← s.isAt [.value]) then return (absent, s)
    if ← s.skip.isAt [.comma, close] then return (absent, s.skip) else node fuel false false s.skip

/-- Reads the items of a list in brackets. A key makes an item a mapping of one entry; if it is
missing, the token in its place is passed. -/
def bracketItems : (fuel start : Nat) → (first : Bool) → Composer → (items : List Node) →
    Except Fault (Node × Composer)
  | 0, start, _, s, _ => s.fail start .missingCommaOrBracket
  | fuel + 1, start, first, s, items => do
    if ← s.isAt [.bracketClose] then return (.list items.reverse, s.skip)
    if !first && !(← s.isAt [.comma]) then s.fail start .missingCommaOrBracket
    else
      let s := if first then s else s.skip
      if ← s.isAt [.bracketClose] then return (.list items.reverse, s.skip)
      if ← s.isAt [.key] then
        let s := s.skip
        let (k, s) ←
          if ← s.isAt [.value, .comma, .bracketClose] then pure (absent, s.skip)
          else node fuel false false s
        let (v, s) ← bracketValue fuel .bracketClose s
        bracketItems fuel start false s (.map [(k, v)] :: items)
      else
        let (n, s) ← node fuel false false s
        bracketItems fuel start false s (n :: items)

/-- Reads the entries of a mapping in braces. An entry without a key mark has no value. -/
def braceEntries : (fuel start : Nat) → (first : Bool) → Composer → (entries : List (Node × Node)) →
    Except Fault (Node × Composer)
  | 0, start, _, s, _ => s.fail start .missingCommaOrBrace
  | fuel + 1, start, first, s, entries => do
    if ← s.isAt [.braceClose] then return (.map entries.reverse, s.skip)
    if !first && !(← s.isAt [.comma]) then s.fail start .missingCommaOrBrace
    else
      let s := if first then s else s.skip
      if ← s.isAt [.braceClose] then return (.map entries.reverse, s.skip)
      if ← s.isAt [.key] then
        let s := s.skip
        let (k, s) ←
          if ← s.isAt [.value, .comma, .braceClose] then pure (absent, s)
          else node fuel false false s
        let (v, s) ← bracketValue fuel .braceClose s
        braceEntries fuel start false s ((k, v) :: entries)
      else
        let (n, s) ← node fuel false false s
        braceEntries fuel start false s ((n, absent) :: entries)

end

/-! ## Documents -/

/-- The handles that every document knows. -/
def commonHandles : List (String × String) := [("!", "!"), ("!!", commonStem)]

/-- Reads the directives of a document. -/
def directives : (fuel : Nat) → (versioned : Bool) → Composer → Except Fault Composer
  | 0, _, s => s.fail 0 .missingDocumentStart
  | fuel + 1, versioned, s => do
    let t ← s.peek
    match t.kind with
    | .version major minor =>
      if versioned then .error (.inOrder .repeatedVersion 0 t.line)
      else if major ≠ 1 ∨ minor ≠ 1 then .error (.inOrder .incompatible 0 t.line)
      else directives fuel true s.skip
    | .tagPrefix handle stem =>
      if (s.handles.lookup handle).isSome then .error (.inOrder .repeatedTag 0 t.line)
      else directives fuel versioned { s.skip with handles := s.handles ++ [(handle, stem)] }
    | _ => return { s with handles := s.handles ++ commonHandles }

/-- What ends a document that has no content. -/
def endsDocument : Token.Kind → Bool
  | .version _ _ => true
  | .tagPrefix _ _ => true
  | .documentStart => true
  | .documentEnd => true
  | .streamEnd => true
  | _ => false

/-- Reads the content of a document after the sign of its start. -/
def content (fuel : Nat) (s : Composer) : Except Fault (Node × Composer) := do
  if endsDocument (← s.peek).kind then return (absent, s) else node fuel true false s

/-- Reads the first document, with a look at what follows it. -/
def document (fuel : Nat) (s : Composer) : Except Fault Node := do
  let s := s.skip
  let t ← s.peek
  if t.kind == .streamEnd then return absent
  else if endsDocument t.kind && t.kind != .documentEnd then
    let s ← directives fuel false s
    if !(← s.isAt [.documentStart]) then s.fail 0 .missingDocumentStart
    else
      let (n, s) ← content fuel s.skip
      let _ ← s.peek
      return n
  else
    let s ← directives fuel false s
    let (n, s) ← node fuel true false s
    let _ ← s.peek
    return n

end Composer

/-- Reads the tree of the first document of a text; without one it is an empty scalar. -/
def Node.parse (s : String) : Except Fault Node :=
  let (tokens, fault) := Token.scan s
  let composer : Composer :=
    match fault with
    | some ending => { tokens, ending }
    | none => { tokens }
  composer.document (4 * tokens.length + 8)

end RulePlan.Yaml
