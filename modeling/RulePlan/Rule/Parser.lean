import RulePlan.Rule
import RulePlan.Rule.Fault
import RulePlan.SymbolTable

/-!
# RulePlan.Rule.Parser — from the text of a line to a rule

The tokens of a line are first checked as a whole (parentheses, separator, final dot), then the
head is read as an atom and the body is cut at its outermost commas and read element by element.
`_` stands for a new variable at each place in the body; the n-th one is called `_n`.

Reading a rule also names predicates. `Reading` keeps the names met up to success or failure, in
order, because a name enters the symbol table as soon as its atom is recognised, even if the rule
is refused later.
-/

namespace RulePlan.Rule

/-! ## Shapes of token lists -/

/-- Checks that parentheses match, `depth` of them being open. -/
def balance (depth : Nat) : List Token → Except Fault Unit
  | [] => if depth = 0 then .ok () else .error (.unclosed depth)
  | t :: ts =>
    match t.kind with
    | .leftParen => balance (depth + 1) ts
    | .rightParen =>
      match depth with
      | 0 => .error (.unexpectedClose t)
      | d + 1 => balance d ts
    | _ => balance depth ts

/-- Puts a token in front of the first segment. -/
def prepend (t : Token) : List (List Token) → List (List Token)
  | [] => [[t]]
  | s :: ss => (t :: s) :: ss

/-- Cuts tokens at the commas outside parentheses, at nesting `depth`. -/
def segments (depth : Int) : List Token → List (List Token)
  | [] => [[]]
  | t :: ts =>
    match t.kind with
    | .leftParen => prepend t (segments (depth + 1) ts)
    | .rightParen => prepend t (segments (depth - 1) ts)
    | .comma => if depth = 0 then [] :: segments depth ts else prepend t (segments depth ts)
    | _ => prepend t (segments depth ts)

/-- Whether nesting falls back to zero at the last token only, if at all. -/
def closesLast (depth : Nat) : List Token → Bool
  | [] => true
  | t :: ts =>
    match t.kind with
    | .leftParen => closesLast (depth + 1) ts
    | .rightParen => if depth ≤ 1 ∧ ts ≠ [] then false else closesLast (depth - 1) ts
    | _ => closesLast depth ts

/-- The name and the tokens between the parentheses, if tokens have the shape `name( ... )` with
the parentheses spanning all that follows the name. -/
def atomShape? : List Token → Option (String × List Token)
  | name :: paren :: rest =>
    if name.kind = .ident ∧ paren.kind = .leftParen
        ∧ (rest.getLast?.map Token.kind) = some .rightParen ∧ closesLast 1 rest = true then
      some (name.value, rest.dropLast)
    else none
  | _ => none

/-! ## Arguments and atoms -/

/-- Reads an argument. `fresh` counts the anonymous variables so far, and is `none` in a head, where
there are none. -/
def readArgument (fresh : Option Nat) : List Token → Except Fault (Argument × Option Nat)
  | [] => .error .emptyArgument
  | [t] =>
    match t.kind with
    | .ident =>
      if t.value = "_" then
        match fresh with
        | none => .error (.anonymousInHead t)
        | some n => .ok (.var ("_" ++ Text.Decimal.ofNat (n + 1)), some (n + 1))
      else .ok (.var t.value, fresh)
    | .int =>
      match Text.Decimal.readInt64? false t.value.toList with
      | some v => .ok (.const v, fresh)
      | none => .error (.integerOutOfRange t.value)
    | _ => .error (.badArgument t)
  | [t, u] =>
    if t.isOp "-" ∧ u.kind = .int then
      match Text.Decimal.readInt64? true u.value.toList with
      | some v => .ok (.const v, fresh)
      | none => .error (.integerOutOfRange ("-" ++ u.value))
    else .error (.badArgument t)
  | t :: _ => .error (.badArgument t)

/-- Reads arguments one after the other. -/
def readArguments (fresh : Option Nat) :
    List (List Token) → Except Fault (List Argument × Option Nat)
  | [] => .ok ([], fresh)
  | s :: ss => do
    let (arg, fresh) ← readArgument fresh s
    let (args, fresh) ← readArguments fresh ss
    .ok (arg :: args, fresh)

/-- Reads an atom from the tokens of a head or of a body element. -/
def readAtom (fresh : Option Nat) (tokens : List Token) : Except Fault (Atom × Option Nat) :=
  match atomShape? tokens with
  | some (name, []) => .ok (⟨name, []⟩, fresh)
  | some (name, inner) => do
    let (args, fresh) ← readArguments fresh (segments 0 inner)
    .ok (⟨name, args⟩, fresh)
  | none =>
    match tokens with
    | [] => .error .missingHead
    | t :: _ => .error (.malformedAtom t)

/-! ## Body elements -/

/-- Reads an expression of a body element. -/
def readExpression (tokens : List Token) : Except Fault Expression :=
  match Expression.ofTokens? tokens with
  | some e => .ok e
  | none => .error (.badExpression (Expression.spell tokens))

/-- The tokens of the atom in an element that is a literal by its shape, with its polarity. -/
def literalTokens? : List Token → Option (Bool × List Token)
  | [] => none
  | t :: ts =>
    if t.kind = .not then
      match ts with
      | name :: paren :: _ =>
        if name.kind = .ident ∧ paren.kind = .leftParen then some (true, ts) else none
      | _ => none
    else if (atomShape? (t :: ts)).isSome then some (false, t :: ts)
    else none

/-- Reads an assignment or a test. -/
def readFormula : List Token → Except Fault Element
  | [] => .error .emptyElement
  | t :: ts =>
    if t.kind = .not then .error (.misplacedNegation t)
    else if t.kind = .ident ∧ (ts.head?.any (·.isOp "=")) = true then
      match ts.tail with
      | [] => .error (.missingExpression t.value)
      | value => (readExpression value).map (.assign t.value ·)
    else if (t :: ts).any Token.isComparison then (readExpression (t :: ts)).map .test
    else .error (.unclassified t)

/-- Reads a body element, `fresh` anonymous variables being used. -/
def readElement (fresh : Nat) (tokens : List Token) : Except Fault (Element × Nat) :=
  match literalTokens? tokens with
  | some (negated, atomTokens) => do
    let (atom, fresh') ← readAtom (some fresh) atomTokens
    .ok (.literal ⟨negated, atom⟩, fresh'.getD fresh)
  | none => do
    let e ← readFormula tokens
    .ok (e, fresh)

/-! ## Whole rules -/

/-- A result together with the predicates named on the way to it, in order. -/
structure Reading (α : Type) where
  names : List String
  result : Except Fault α

/-- The predicate that a body element names, if it is a literal with a well-shaped atom. -/
def elementName? (tokens : List Token) : Option String := do
  let (_, atomTokens) ← literalTokens? tokens
  let (name, _) ← atomShape? atomTokens
  some name

/-- Reads the elements of a body in order, up to the first that fails. -/
def readBody (fresh : Nat) : List (List Token) → Reading (List Element)
  | [] => ⟨[], .ok []⟩
  | s :: ss =>
    match readElement fresh s with
    | .error fault => ⟨(elementName? s).toList, .error fault⟩
    | .ok (e, fresh') =>
      let more := readBody fresh' ss
      ⟨(elementName? s).toList ++ more.names, more.result.map (e :: ·)⟩

/-- The literals of a body. -/
def literalsOf (body : List Element) : List Literal :=
  body.filterMap fun
    | .literal l => some l
    | _ => none

/-- At most two literals may be positive, and there must be one. -/
def checkCounts (body : List Element) : Except Fault Unit :=
  let positive := ((literalsOf body).filter (!·.negated)).length
  if 2 < positive then .error (.tooManyPositive positive)
  else if (literalsOf body).isEmpty then .error .noPredicate
  else .ok ()

/-- The tokens before and after the separator, once the whole line is well formed: parentheses
match, there is one separator, and the only dot is the last token. -/
def splitRule (tokens : List Token) : Except Fault (List Token × List Token) := do
  if tokens = [] then throw .emptyRule
  balance 0 tokens
  let separators := tokens.filter (·.kind == .implies)
  match separators with
  | [] => throw .missingSeparator
  | _ :: second :: _ => throw (.secondSeparator second)
  | [_] => pure ()
  if (tokens.getLast?.map Token.kind) ≠ some .dot then throw .missingDot
  match tokens.dropLast.find? (·.kind == .dot) with
  | some t => throw (.strayDot t)
  | none => pure ()
  let head := tokens.takeWhile (·.kind != .implies)
  pure (head, (tokens.drop (head.length + 1)).dropLast)

/-- Reads the head of a rule. -/
def readHead (tokens : List Token) : Except Fault Atom :=
  if (tokens.head?.map Token.kind) = some .not then .error .negatedHead
  else (readAtom none tokens).map Prod.fst

/-- Reads head and body from the tokens of a line, the end of input left off. -/
def readTokens (tokens : List Token) : Reading (Atom × List Element) :=
  match splitRule tokens with
  | .error fault => ⟨[], .error fault⟩
  | .ok (headTokens, bodyTokens) =>
    let headName := ((atomShape? headTokens).map Prod.fst).toList
    match readHead headTokens with
    | .error fault => ⟨headName, .error fault⟩
    | .ok head =>
      if bodyTokens = [] then ⟨headName, .error .emptyBody⟩
      else
        let body := readBody 0 (segments 0 bodyTokens)
        ⟨headName ++ body.names, do
          let elements ← body.result
          checkCounts elements
          .ok (head, elements)⟩

/-- Reads a rule from the text of a line. -/
def read (line : Int) (text : String) : Reading Rule :=
  let trimmed := Text.trim text
  match Token.tokenize trimmed line with
  | .error fault => ⟨[], .error (.lexical fault)⟩
  | .ok tokens =>
    let reading := readTokens tokens.dropLast
    ⟨reading.names, reading.result.map fun (head, body) => ⟨head, body, line, trimmed⟩⟩

/-- Reads a rule and enters the predicates it names into a symbol table. The text is one of
characters, that is in valid UTF-8; lines with other bytes are left out. -/
def parse (symbols : SymbolTable) (line : Int) (text : String) :
    Except Fault Rule × SymbolTable :=
  let reading := read line text
  (reading.result, symbols.internAll reading.names)

end RulePlan.Rule
