import Mathlib.Data.Set.Basic
import RulePlan.Plan

/-!
# RulePlan.Proofs.Derivation — what rules derive, and what equations derive

Two readings of the same program over one database. A rule is read declaratively: it derives the
head under every valuation of its variables that puts its positive atoms into the database, keeps
its negated atoms out of it, makes its tests hold and gives its assigned variables the values of
their expressions. An equation is read as the procedure it stands for: it takes a tuple of its
driving predicate, compares the selected columns, looks up a tuple of the consulted predicate
through the view, and reads everything else at columns, constants and the variables that the lookup
bound. A term that has no value makes the equation derive nothing, so an equation that is not closed
cannot pass for one that is.

What expressions mean is left open: an `Evaluator` is any function of the pieces of an expression in
which the variables have been replaced by values.
-/

namespace RulePlan

/-- A row of a relation. -/
abbrev Tuple := List Int64

/-- The relations of the predicates of a program; every tuple has the arity recorded for its
predicate. -/
structure Database (p : Program) where
  rows : String → Set Tuple
  arity_eq : ∀ {name : String} {t : Tuple}, t ∈ rows name → p.arity? name = some (t.length : Int)

/-- A piece of an expression once variables have values. -/
inductive Slot where
  | text (text : String)
  | value (value : Int64)
deriving DecidableEq, Repr

/-- A meaning of expressions: when the pieces hold as a test, and the value they have as an assigned
expression, if any. -/
structure Evaluator where
  holds : List Slot → Prop
  value : List Slot → Option Int64

/-! ## Rules -/

/-- A value for every variable. -/
abbrev Valuation := String → Int64

/-- An argument under a valuation. -/
def Argument.under (σ : Valuation) : Argument → Int64
  | .var x => σ x
  | .const v => v

/-- The tuple that an atom stands for under a valuation. -/
def Atom.under (σ : Valuation) (a : Atom) : Tuple := a.args.map (Argument.under σ)

/-- The pieces of an expression under a valuation. -/
def Expression.under (σ : Valuation) (e : Expression) : List Slot :=
  e.pieces.map fun p => if p.isVariable then .value (σ p.text) else .text p.text

namespace Rule

/-- A valuation makes the whole body of a rule true. -/
structure Fires {p : Program} (r : Rule) (E : Evaluator) (D : Database p) (σ : Valuation) :
    Prop where
  positive : ∀ a ∈ r.positive, a.under σ ∈ D.rows a.predicate
  negative : ∀ a ∈ r.negative, a.under σ ∉ D.rows a.predicate
  tests : ∀ e ∈ r.tests, E.holds (e.under σ)
  assignments : ∀ target e, (target, e) ∈ r.assignments → E.value (e.under σ) = some (σ target)

/-- The head tuples that a rule derives in one application. -/
def derived {p : Program} (r : Rule) (E : Evaluator) (D : Database p) : Set Tuple :=
  {h | ∃ σ, r.Fires E D σ ∧ h = r.head.under σ}

end Rule

/-! ## Terms -/

/-- Values of the variables that the driving tuple does not bind. -/
abbrev Binding := String → Option Int64

/-- Nothing is bound. -/
def Binding.empty : Binding := fun _ => none

/-- One more variable is bound. -/
def Binding.set (b : Binding) (x : String) (v : Int64) : Binding :=
  fun y => if y = x then some v else b y

/-- The value of a term at a driving tuple. -/
def Term.value? (t : Tuple) (b : Binding) : Term → Option Int64
  | .column (.ofNat i) => t[i]?
  | .column (.negSucc _) => none
  | .argument (.const v) => some v
  | .argument (.var x) => b x

/-- The value of a piece of an expression in terms of columns. -/
def Operand.slot? (t : Tuple) (b : Binding) : Operand → Option Slot
  | .text s => some (.text s)
  | .reference _ term => (term.value? t b).map .value

/-- A term has a value, and it stands at column `i` of `u`. -/
def Term.StandsAt (term : Term) (t : Tuple) (b : Binding) (u : Tuple) (i : Nat) : Prop :=
  ∃ v, term.value? t b = some v ∧ u[i]? = some v

/-- All terms have values, and `u` lists them. -/
def Term.Read (t : Tuple) (b : Binding) (terms : List Term) (u : Tuple) : Prop :=
  terms.map (Term.value? t b) = u.map some

/-- All pieces have values, and `s` lists them. -/
def Operand.Read (t : Tuple) (b : Binding) (pieces : List Operand) (s : List Slot) : Prop :=
  pieces.map (Operand.slot? t b) = s.map some

/-! ## Lookups -/

namespace Consultation

/-- The columns of the view with the declared columns they come from. -/
def columns (c : Consultation) : List (Term × Nat) := c.view.zip c.combination

/-- The columns that are fixed before the lookup. -/
def fixedColumns (c : Consultation) : List (Term × Nat) := c.columns.take c.bound

/-- The columns that the lookup binds. -/
def freeColumns (c : Consultation) : List (Term × Nat) := c.columns.drop c.bound

/-- The variables that a consulted tuple binds: each takes its value at its first free column. -/
def binding (c : Consultation) (u : Tuple) : Binding := fun x =>
  (c.freeColumns.find? (·.1 == .argument (.var x))).bind fun column => u[column.2]?

/-- The lookup for a driving tuple finds `u`: the fixed columns have the values of their terms, and
a variable that stands at several free columns has one value. -/
structure Finds (c : Consultation) (t u : Tuple) : Prop where
  fixed : ∀ column ∈ c.fixedColumns, column.1.StandsAt t .empty u column.2
  free : ∀ column ∈ c.freeColumns, column.1.StandsAt t (c.binding u) u column.2

end Consultation

/-! ## Equations -/

namespace Equation

/-- The driving tuple passes the selections. -/
def Selects (e : Equation) (t : Tuple) : Prop :=
  ∀ s ∈ e.selections, s.equals.StandsAt t .empty t s.column

/-- What the equation does with a driving tuple and the variables bound by the lookup: the negated
atoms are absent, the condition holds, the assignment has a value, and `h` is the head. -/
structure Yields {p : Program} (e : Equation) (E : Evaluator) (D : Database p) (t : Tuple)
    (b : Binding) (h : Tuple) : Prop where
  negated : ∀ n ∈ e.negated, ∃ u, Term.Read t b n.args u ∧ u ∉ D.rows n.predicate
  condition : ∀ c ∈ e.condition, ∃ s, Operand.Read t b c s ∧ E.holds s
  head : match e.assignment with
    | none => Term.Read t b e.headArgs h
    | some (target, value) => ∃ s v, Operand.Read t b value s ∧ E.value s = some v
        ∧ Term.Read t (b.set target v) e.headArgs h

/-- The head tuples that an equation derives when it is driven by the tuples of `driving` only and
reads everything else in the database. -/
def derivedFrom {p : Program} (e : Equation) (E : Evaluator) (driving : Set Tuple)
    (D : Database p) : Set Tuple :=
  match e.consulting with
  | none => {h | ∃ t ∈ driving, e.Selects t ∧ e.Yields E D t .empty h}
  | some c => {h | ∃ t ∈ driving, e.Selects t ∧
      ∃ u ∈ D.rows c.predicate, c.Finds t u ∧ e.Yields E D t (c.binding u) h}

/-- The head tuples that an equation derives from a database. -/
def derived {p : Program} (e : Equation) (E : Evaluator) (D : Database p) : Set Tuple :=
  e.derivedFrom E (D.rows e.driving) D

end Equation

end RulePlan
