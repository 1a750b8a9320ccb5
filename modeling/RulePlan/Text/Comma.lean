import RulePlan.Text.Decimal

/-!
# RulePlan.Text.Comma — values separated by commas

A value that starts with a double quote goes on to the closing quote, over line ends too, and may
hold commas and, doubled, quotes; any other value must be free of quotes and ends with its line. A
carriage return counts as part of the line end behind it, and so does one at the end of the text.
The values are those of the first line that is not empty; what follows it is left alone. Lines and
columns in messages count from one, columns in bytes.
-/

namespace RulePlan.Text.Comma

/-- A place in the text. -/
structure Place where
  line : Nat
  column : Nat
deriving DecidableEq, Repr

/-- Why a text is no list of values. A record may start on a line before that of its fault. -/
inductive Fault where
  | nothing
  | bareQuote (start : Nat) (place : Place)
  | badQuote (start : Nat) (place : Place)
deriving DecidableEq, Repr

/-- The wording of a place. -/
def Place.describe (start : Nat) (p : Place) : String :=
  (if start = p.line then "" else "record on line " ++ Decimal.ofNat start ++ "; ")
    ++ "parse error on line " ++ Decimal.ofNat p.line
    ++ ", column " ++ Decimal.ofNat p.column ++ ": "

/-- The wording of each cause. -/
def Fault.message : Fault → String
  | .nothing => "EOF"
  | .bareQuote start place => place.describe start ++ "bare \x22 in non-quoted-field"
  | .badQuote start place => place.describe start ++ "extraneous or missing \x22 in quoted-field"

/-- A place after one more character of its line. -/
def Place.after (p : Place) (c : Char) : Place := { p with column := p.column + c.utf8Size }

/-- The text with every line end as a line feed. -/
def normalize : List Char → List Char
  | [] => []
  | ['\r'] => []
  | '\r' :: '\n' :: cs => '\n' :: normalize cs
  | c :: cs => c :: normalize cs

/-- What follows the empty lines in front, with the number of the line there. -/
def skipEmpty (line : Nat) : List Char → Nat × List Char
  | '\n' :: cs => skipEmpty (line + 1) cs
  | cs => (line, cs)

/-- The inside of a quoted value from a place on, with what follows it and the place there. -/
def quoted (start : Nat) : (place : Place) → List Char →
    Except Fault (List Char × List Char × Place)
  | p, [] => .error (.badQuote start p)
  | p, '\x22' :: '\x22' :: rest =>
    (quoted start ((p.after '\x22').after '\x22') rest).map fun (cs, more) => ('\x22' :: cs, more)
  | p, c :: rest =>
    if c = '\x22' then
      match rest with
      | [] | ',' :: _ | '\n' :: _ => .ok ([], rest, p.after c)
      | _ => .error (.badQuote start p)
    else
      let next := if c = '\n' ∧ !rest.isEmpty then ⟨p.line + 1, 1⟩ else p.after c
      (quoted start next rest).map fun (cs, more) => (c :: cs, more)

/-- A value without quotes, with what follows it and the place there. -/
def bare (start : Nat) : (place : Place) → List Char → Except Fault (List Char × List Char × Place)
  | p, [] => .ok ([], [], p)
  | p, c :: rest =>
    if c = ',' ∨ c = '\n' then .ok ([], c :: rest, p)
    else if c = '\x22' then .error (.bareQuote start p)
    else (bare start (p.after c) rest).map fun (cs, more) => (c :: cs, more)

/-- The values of a record from a place on. Every value but the last is followed by a comma, so the
fuel, a bound on the length, suffices. -/
def values (start : Nat) : (fuel : Nat) → (place : Place) → List Char → Except Fault (List String)
  | 0, _, _ => .ok []
  | fuel + 1, p, cs =>
    let field :=
      match cs with
      | '\x22' :: rest => quoted start (p.after '\x22') rest
      | _ => bare start p cs
    match field with
    | .error fault => .error fault
    | .ok (value, ',' :: rest, p) =>
      (values start fuel (p.after ',') rest).map (String.ofList value :: ·)
    | .ok (value, _, _) => .ok [String.ofList value]

/-- The values of a text; an empty text has none. -/
def read (s : String) : Except Fault (List String) :=
  if s = "" then .ok []
  else
    let (line, cs) := skipEmpty 1 (normalize s.toList)
    if cs.isEmpty then .error .nothing else values line (cs.length + 1) ⟨line, 1⟩ cs

end RulePlan.Text.Comma
