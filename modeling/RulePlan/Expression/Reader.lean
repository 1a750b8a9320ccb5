import RulePlan.Expression.Tree
import RulePlan.Text.Blank
import RulePlan.Text.Decimal
import RulePlan.Token.Lexer

/-!
# RulePlan.Expression.Reader — from expression text to its tree

Expressions are read by operator precedence. `Lexeme.ofChars?` cuts the text and drops its comments,
`expression` reads a tree whose operators bind at least as tightly as a given level, and `read?`
accepts a text that is one whole expression of at most `sizeLimit` nodes. Members and methods bind
tightest. The mutual functions carry a step budget; `read?` starts them with twice the number of
lexemes, and every second step consumes a lexeme.
-/

namespace RulePlan.Expression

/-- The pieces of expression text. -/
inductive Lexeme where
  | number (text : List Char)
  | name (text : String)
  | op (text : String)
  | leftParen
  | rightParen
deriving DecidableEq, Repr

/-- Words that are operators and never names. -/
def operatorWords : List String :=
  ["not", "in", "or", "and", "matches", "contains", "startsWith", "endsWith", "let", "if", "else"]

/-- A word of the text: an operator or a name. -/
def Lexeme.ofWord (word : String) : Lexeme :=
  if operatorWords.contains word then .op word else .name word

/-- Operator characters that may be followed by `=` or `*` to form one operator. -/
def doubling : List Char := ['!', '=', '*', '<', '>']

/-- Operators of one character only. -/
def single : List Char := [',', '+', '-', '%']

/-- The length of a comment after its opening `/*`; `none` if it does not end. -/
def commentLength? : List Char → Option Nat
  | [] => none
  | '*' :: '/' :: _ => some 2
  | _ :: cs => (commentLength? cs).map (· + 1)

/-- Cuts a text into lexemes, without its comments; `none` if a character starts none, a name clings
to a number or a comment does not end. -/
def Lexeme.ofChars? : List Char → Option (List Lexeme)
  | [] => some []
  | c :: r =>
    if Text.isBlank c then ofChars? r
    else if c = '(' then (ofChars? r).map (.leftParen :: ·)
    else if c = ')' then (ofChars? r).map (.rightParen :: ·)
    else if Token.isDigit c then
      match Numeral.length? (c :: r) with
      | none => none
      | some n => (ofChars? (r.drop (n - 1))).map (.number (c :: r.take (n - 1)) :: ·)
    else if Token.isNameStart c then
      (ofChars? (r.dropWhile Token.isNamePart)).map
        (.ofWord (String.ofList (c :: r.takeWhile Token.isNamePart)) :: ·)
    else if doubling.contains c then
      match r with
      | d :: r' =>
        if d = '=' ∨ d = '*' then (ofChars? r').map (.op (String.ofList [c, d]) :: ·)
        else (ofChars? (d :: r')).map (.op (String.singleton c) :: ·)
      | [] => some [.op (String.singleton c)]
    else if c = '/' then
      match r with
      | '/' :: r' => ofChars? (r'.dropWhile (· != '\n'))
      | '*' :: r' =>
        match commentLength? r' with
        | none => none
        | some n => ofChars? (r'.drop n)
      | r => (ofChars? r).map (.op "/" :: ·)
    else if c = '.' then
      match r with
      | '.' :: r' => (ofChars? r').map (.op ".." :: ·)
      | r =>
        if r.head?.any Token.isDigit then
          match Numeral.length? r with
          | none => none
          | some n => (ofChars? (r.drop n)).map (.number ('.' :: r.take n) :: ·)
        else (ofChars? r).map (.op "." :: ·)
    else if single.contains c then (ofChars? r).map (.op (String.singleton c) :: ·)
    else none
termination_by cs => cs.length
decreasing_by
  all_goals simp only [List.length_cons, List.length_drop]
  all_goals first
    | omega
    | exact Nat.lt_succ_of_le (List.dropWhile_sublist _).length_le
    | exact Nat.lt_succ_of_le (Nat.le_succ_of_le (List.dropWhile_sublist _).length_le)

/-- How tightly an operator in front of its operand binds. -/
def unaryLevel? : String → Option Nat
  | "not" | "!" => some 50
  | "-" | "+" => some 90
  | _ => none

/-- How tightly an operator between two operands binds. -/
def binaryLevel? : String → Option Nat
  | "or" => some 10
  | "and" => some 15
  | "==" | "!=" | "<" | ">" | ">=" | "<=" => some 20
  | "in" | "matches" | "contains" | "startsWith" | "endsWith" => some 20
  | ".." => some 25
  | "+" | "-" => some 30
  | "*" | "/" | "%" => some 60
  | "**" => some 100
  | _ => none

/-- Operators that may follow `not` between two operands. -/
def negatable : List String := ["contains", "matches", "startsWith", "endsWith", "in"]

/-- Operators that form chains. -/
def orderings : List String := ["<", ">", ">=", "<="]

/-- Names that are constants. -/
def literals : List String := ["true", "false", "nil"]

/-- The level of the right operand: all operators but the power group to the left. -/
def rightLevel (op : String) (level : Nat) : Nat := if op = "**" then level else level + 1

/-- The name of a member after its point. Words that are operators elsewhere are names there. -/
def memberName? : Lexeme → Option String
  | .name s => some s
  | .op s => if operatorWords.contains s then some s else none
  | _ => none

/-- Words that open a form of their own at the outermost level, which rule text cannot complete. -/
def opensForm : List Lexeme → Bool
  | .op "let" :: _ => true
  | .op "if" :: _ => true
  | _ => false

mutual

/-- Reads an expression whose operators bind at least as tightly as `level`. -/
def expression : (steps level : Nat) → List Lexeme → Option (Tree × List Lexeme)
  | 0, _, _ => none
  | n + 1, level, ts =>
    if level = 0 ∧ opensForm ts then none
    else do
      let (left, rest) ← primary n ts
      operators n level left rest

/-- Reads an operand. -/
def primary : (steps : Nat) → List Lexeme → Option (Tree × List Lexeme)
  | 0, _ => none
  | n + 1, .op s :: ts => do
    let level ← unaryLevel? s
    let (e, rest) ← expression n level ts
    some (.unary s e, rest)
  | n + 1, .leftParen :: ts =>
    match expression n 0 ts with
    | some (e, .rightParen :: rest) => members n e rest
    | _ => none
  | _ + 1, .number text :: ts => do
    let v ← Numeral.read? text
    some (.number v, ts)
  | n + 1, .name s :: .leftParen :: ts =>
    if literals.contains s then some (.literal s, .leftParen :: ts)
    else do
      let (args, rest) ←
        match quantifiers.lookup s with
        | some (least, most) => quantified n 0 least most ts
        | none => arguments n true ts
      members n (.call s args) rest
  | n + 1, .name s :: ts =>
    if literals.contains s then some (.literal s, ts) else members n (.name s) ts
  | _ + 1, .rightParen :: _ => none
  | _ + 1, [] => none

/-- Extends `owner` by the members and methods that follow. -/
def members : (steps : Nat) → Tree → List Lexeme → Option (Tree × List Lexeme)
  | 0, _, _ => none
  | n + 1, owner, .op "." :: t :: ts => do
    let name ← memberName? t
    match ts with
    | .leftParen :: ts => do
      let (args, rest) ← arguments n true ts
      members n (.method owner name args) rest
    | ts => members n (.member owner name) ts
  | _ + 1, _, [.op "."] => none
  | _ + 1, owner, ts => some (owner, ts)

/-- Extends `left` by the operators that follow and bind at least as tightly as `level`. -/
def operators : (steps level : Nat) → Tree → List Lexeme → Option (Tree × List Lexeme)
  | 0, _, _, _ => none
  | n + 1, level, left, .op "not" :: rest =>
    match rest with
    | .op s :: rest' =>
      if negatable.contains s then
        match binaryLevel? s with
        | some q =>
          if q < level then some (left, .op "not" :: rest)
          else do
            let (right, rest'') ← expression n (rightLevel s q) rest'
            operators n level (.unary "not" (.binary s left right)) rest''
        | none => none
      else none
    | _ => none
  | n + 1, level, left, .op s :: rest =>
    match binaryLevel? s with
    | some q =>
      if q < level then some (left, .op s :: rest)
      else do
        let (right, rest') ← expression n (rightLevel s q) rest
        if orderings.contains s then
          let (more, rest'') ← links n q rest'
          operators n level (.chain left ((s, right) :: more)) rest''
        else operators n level (.binary s left right) rest'
    | none => some (left, .op s :: rest)
  | _ + 1, _, left, ts => some (left, ts)

/-- Reads the further links of a chain of ordering comparisons. -/
def links : (steps level : Nat) → List Lexeme → Option (List (String × Tree) × List Lexeme)
  | 0, _, _ => none
  | n + 1, level, .op s :: rest =>
    if orderings.contains s then do
      let (right, rest') ← expression n (level + 1) rest
      let (more, rest'') ← links n level rest'
      some ((s, right) :: more, rest'')
    else some ([], .op s :: rest)
  | _ + 1, _, ts => some ([], ts)

/-- Reads the arguments of an ordinary call up to and with the closing parenthesis. One comma may
stand after the last argument. -/
def arguments : (steps : Nat) → (first : Bool) → List Lexeme → Option (List Tree × List Lexeme)
  | 0, _, _ => none
  | _ + 1, _, .rightParen :: rest => some ([], rest)
  | n + 1, true, ts => do
    let (e, rest) ← expression n 0 ts
    let (more, rest') ← arguments n false rest
    some (e :: more, rest')
  | _ + 1, false, .op "," :: .rightParen :: rest => some ([], rest)
  | n + 1, false, .op "," :: ts => do
    let (e, rest) ← expression n 0 ts
    let (more, rest') ← arguments n false rest
    some (e :: more, rest')
  | _ + 1, false, _ => none

/-- Reads the arguments of a quantifier up to and with the closing parenthesis, `read` of them being
read already. One comma may stand after the last possible argument. -/
def quantified :
    (steps read least most : Nat) → List Lexeme → Option (List Tree × List Lexeme)
  | 0, _, _, _, _ => none
  | n + 1, read, least, most, ts =>
    if most ≤ read then
      match ts with
      | .rightParen :: rest => some ([], rest)
      | .op "," :: .rightParen :: rest => some ([], rest)
      | _ => none
    else
      let start? :=
        match read, ts with
        | 0, ts => some ts
        | _ + 1, .op "," :: ts => some ts
        | _ + 1, _ => none
      match ts, start? with
      | .rightParen :: rest, none => if least ≤ read then some ([], rest) else none
      | _, some start => do
        let (e, rest) ← expression n 0 start
        let (more, rest') ← quantified n (read + 1) least most rest
        some (e :: more, rest')
      | _, none => none

end

/-- The greatest number of nodes that an expression may have. -/
def sizeLimit : Nat := 10000

/-- Reads a text that is one whole expression within the size limit. -/
def read? (text : String) : Option Tree := do
  let lexemes ← Lexeme.ofChars? text.toList
  match expression (2 * lexemes.length + 4) 0 lexemes with
  | some (tree, []) => if tree.size ≤ sizeLimit then some tree else none
  | _ => none

/-- The variables that the expression of a text reads, in order and with repetitions. -/
def variablesOf? (text : String) : Option (List String) := (read? text).map Tree.reads

end RulePlan.Expression
