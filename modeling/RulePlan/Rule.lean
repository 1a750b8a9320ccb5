import RulePlan.Expression
import RulePlan.Text.Decimal

/-!
# RulePlan.Rule — rules of the language

A rule derives its head atom from a body of literals (atoms, possibly negated), assignments and
tests. Arguments are variables or 64-bit constants. `Rule.render` is the canonical source form, in
which negation is spelled `not` and elements are separated by a comma and a space.
-/

namespace RulePlan

/-- An argument of an atom. -/
inductive Argument where
  | var (name : String)
  | const (value : Int64)
deriving DecidableEq, Repr

namespace Argument

/-- The name of a variable. -/
def name? : Argument → Option String
  | .var n => some n
  | .const _ => none

/-- The source form. -/
def render : Argument → String
  | .var n => n
  | .const v => Text.Decimal.ofInt64 v

end Argument

/-- A predicate applied to arguments. -/
structure Atom where
  predicate : String
  args : List Argument
deriving DecidableEq, Repr

namespace Atom

/-- The number of arguments. -/
def arity (a : Atom) : Nat := a.args.length

/-- The variables at all argument places, repetitions kept. -/
def variablePlaces (a : Atom) : List String := a.args.filterMap Argument.name?

/-- The distinct variables in order of first appearance. -/
def vars (a : Atom) : List String := Expression.distinct a.variablePlaces

/-- Whether some variable stands at more than one place. -/
def repeatsVariable (a : Atom) : Bool := a.vars.length < a.variablePlaces.length

/-- The source form. -/
def render (a : Atom) : String :=
  a.predicate ++ "(" ++ ", ".intercalate (a.args.map Argument.render) ++ ")"

end Atom

/-- An atom of a body, possibly negated. -/
structure Literal where
  negated : Bool
  atom : Atom
deriving DecidableEq, Repr

/-- The source form. -/
def Literal.render (l : Literal) : String := (if l.negated then "not " else "") ++ l.atom.render

/-- An element of a rule body. -/
inductive Element where
  | literal (l : Literal)
  | assign (target : String) (value : Expression)
  | test (condition : Expression)
deriving DecidableEq, Repr

/-- The source form. -/
def Element.render : Element → String
  | .literal l => l.render
  | .assign target e => target ++ " = " ++ e.source
  | .test e => e.source

/-- A rule with the line it stands on and its trimmed text. -/
structure Rule where
  head : Atom
  body : List Element
  line : Int
  text : String
deriving DecidableEq, Repr

namespace Rule

/-- The literals of the body, in order. -/
def literals (r : Rule) : List Literal :=
  r.body.filterMap fun
    | .literal l => some l
    | _ => none

/-- The atoms of the body that are not negated, in order. -/
def positive (r : Rule) : List Atom := (r.literals.filter (!·.negated)).map Literal.atom

/-- The negated atoms of the body, in order. -/
def negative (r : Rule) : List Atom := (r.literals.filter Literal.negated).map Literal.atom

/-- The assignments of the body, in order. -/
def assignments (r : Rule) : List (String × Expression) :=
  r.body.filterMap fun
    | .assign target e => some (target, e)
    | _ => none

/-- The tests of the body, in order. -/
def tests (r : Rule) : List Expression :=
  r.body.filterMap fun
    | .test e => some e
    | _ => none

/-- The first assignment. -/
def assignment? (r : Rule) : Option (String × Expression) := r.assignments.head?

/-- The first test. -/
def test? (r : Rule) : Option Expression := r.tests.head?

/-- Whether the body negates a predicate. -/
def negates (r : Rule) (predicate : String) : Bool :=
  r.negative.any (·.predicate == predicate)

/-- The type number of a rule: how many literals its body has, kept in one byte. -/
def type (r : Rule) : Nat := r.literals.length % 256

/-- The variables of the positive atoms. -/
def positiveVariables (r : Rule) : List String := r.positive.flatMap Atom.vars

/-- The head and the atoms of the body, in order. -/
def atoms (r : Rule) : List Atom := r.head :: r.literals.map Literal.atom

/-- The canonical source form. -/
def render (r : Rule) : String :=
  r.head.render ++ " :- " ++ ", ".intercalate (r.body.map Element.render) ++ "."

end Rule

end RulePlan
