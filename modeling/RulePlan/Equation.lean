import RulePlan.Diagnostic
import RulePlan.Program
import RulePlan.View

/-!
# RulePlan.Equation — rules arranged to run from the tuples of one predicate

An equation is driven by the tuples of one positive atom of its rule. Variables of that atom become
columns; its constants and repeated variables become selections on the tuple. If the rule has a
second positive atom it is consulted through a view. Head arguments, negated atoms, condition and
assignment are given in the same columns.
-/

namespace RulePlan

/-- A variable with the column where the driving atom first has it. -/
structure Placement where
  name : String
  column : Nat
deriving DecidableEq, Repr

/-- A restriction on a column of the driving tuple: to a constant, or to equal an earlier column. -/
structure Selection where
  column : Nat
  equals : Term
deriving DecidableEq, Repr

/-- `$i = term`. -/
def Selection.render (s : Selection) : String :=
  (Term.column s.column).render ++ " = " ++ s.equals.render

/-- A negated atom in terms of columns. -/
structure NegatedAtom where
  predicate : String
  args : List Term
deriving DecidableEq, Repr

/-- `not p($0, 3)`. -/
def NegatedAtom.render (n : NegatedAtom) : String := "not " ++ n.predicate ++ Term.renderAll n.args

/-! ## Expressions in terms of columns -/

/-- A piece of an expression in terms of columns: text as it stands, or a variable with its term. -/
inductive Operand where
  | text (text : String)
  | reference (name : String) (term : Term)
deriving DecidableEq, Repr

namespace Operand

/-- The piece as it stood in the source. -/
def source : Operand → String
  | .text t => t
  | .reference name _ => name

/-- The piece as it is written now. -/
def render : Operand → String
  | .text t => t
  | .reference _ term => term.render

/-- Whether a text starts like a name. -/
def startsName (text : String) : Bool := text.toList.head?.any Token.isNameStart

/-- Whether two neighbouring pieces are written without a space between them. -/
def tight (before after : Operand) : Bool :=
  before.source == "(" || after.render == ")" || after.render == ","
    || (after.render == "(" &&
      match before with
      | .text t => startsName t
      | .reference .. => false)

/-- The text of the pieces that follow a given one. -/
def renderAfter (before : Operand) : List Operand → String
  | [] => ""
  | o :: os => (if tight before o then "" else " ") ++ o.render ++ renderAfter o os

/-- The text of an expression in terms of columns. -/
def renderAll : List Operand → String
  | [] => ""
  | o :: os => o.render ++ renderAfter o os

end Operand

/-- `target := expression`. -/
def renderAssignment (target : String) (value : List Operand) : String :=
  target ++ " := " ++ Operand.renderAll value

/-! ## Equations -/

/-- Which of two positive atoms drives. -/
inductive Orientation where
  | firstDrives
  | secondDrives
deriving DecidableEq, Repr

/-- The short name of an orientation. -/
def Orientation.label : Orientation → String
  | .firstDrives => "2a"
  | .secondDrives => "2b"

/-- How the second positive atom is consulted. -/
structure Consultation where
  orientation : Orientation
  predicate : String
  args : List Term
  common : List Placement
  view : List Term
  combination : List Nat
  bound : Nat
  viewName : String
  viewAlias : String
deriving DecidableEq, Repr

/-- Whether every consulted column is fixed before the lookup. -/
def Consultation.isMembership (c : Consultation) : Bool := c.bound == c.view.length

/-- A rule arranged to run. `rule` counts the rules of the source from one. -/
structure Equation where
  rule : Nat
  line : Int
  head : String
  headArgs : List Term
  driving : String
  drivingArgs : List Argument
  positions : List Placement
  selections : List Selection
  consulting : Option Consultation
  condition : Option (List Operand)
  assignment : Option (String × List Operand)
  negated : List NegatedAtom
deriving DecidableEq, Repr

namespace Equation

/-- The name of an equation kind by the number of positive atoms it joins. -/
def kindLabel : UInt8 → String
  | 1 => "unary"
  | 2 => "binary"
  | _ => "unknown"

/-- Unary equations consult nothing, binary ones consult a second atom. -/
def kind (e : Equation) : String := kindLabel (if e.consulting.isSome then 2 else 1)

/-- Condition, assignment and negated atoms, as they follow the join. -/
def renderAttachments (e : Equation) : String :=
  (match e.condition with
    | some c => " if " ++ Operand.renderAll c
    | none => "")
  ++ (match e.assignment with
    | some (target, value) => " with " ++ renderAssignment target value
    | none => "")
  ++ String.join (e.negated.map fun n => ", " ++ n.render)

/-- The equation as one line. -/
def render (e : Equation) : String :=
  e.head ++ Term.renderAll e.headArgs ++ " <- " ++ e.driving
    ++ (match e.consulting with
      | some c => " ⋈ " ++ c.predicate ++ Term.renderAll c.view ++ " [" ++ c.viewName ++ "]"
      | none => "")
    ++ e.renderAttachments

end Equation

/-! ## From rules to equations -/

namespace Equation

/-- The driving columns: for every variable its first column, for every other column a
selection. -/
structure Columns where
  positions : List Placement
  selections : List Selection
deriving DecidableEq, Repr

/-- The column of a variable. -/
def Columns.find? (c : Columns) (name : String) : Option Nat :=
  (c.positions.find? (·.name == name)).map Placement.column

/-- Takes in the argument at one column. -/
def Columns.add (c : Columns) (arg : Argument × Nat) : Columns :=
  match arg with
  | (.const v, i) => { c with selections := c.selections ++ [⟨i, .argument (.const v)⟩] }
  | (.var name, i) =>
    match c.find? name with
    | some first => { c with selections := c.selections ++ [⟨i, .column first⟩] }
    | none => { c with positions := c.positions ++ [⟨name, i⟩] }

/-- The driving columns of an atom. -/
def Columns.ofArgs (args : List Argument) : Columns := args.zipIdx.foldl Columns.add ⟨[], []⟩

/-- A variable of the driving atom becomes its column; other arguments stay. -/
def Columns.term (c : Columns) : Argument → Term
  | .const v => .argument (.const v)
  | .var name =>
    match c.find? name with
    | some i => .column i
    | none => .argument (.var name)

/-- The variables of an expression become terms; other pieces stay. -/
def Columns.operands (c : Columns) (e : Expression) : List Operand :=
  e.pieces.map fun p =>
    if p.isVariable then .reference p.text (c.term (.var p.text)) else .text p.text

/-- The distinct variables of a consulted atom that the driving atom has too. -/
def Columns.common (c : Columns) (args : List Argument) : List Placement :=
  (Expression.distinct (args.filterMap Argument.name?)).filterMap fun name =>
    (c.find? name).map (⟨name, ·⟩)

/-- The equation of a rule driven by one of its positive atoms. -/
def ofRule (r : Rule) (number : Nat) (driving : Atom) (consulting : Option Consultation) :
    Equation :=
  let columns := Columns.ofArgs driving.args
  { rule := number
    line := r.line
    head := r.head.predicate
    headArgs := r.head.args.map columns.term
    driving := driving.predicate
    drivingArgs := driving.args
    positions := columns.positions
    selections := columns.selections
    consulting
    condition := r.test?.map columns.operands
    assignment := r.assignment?.map fun (target, e) => (target, columns.operands e)
    negated := r.negative.map fun a => ⟨a.predicate, a.args.map columns.term⟩ }

end Equation

/-- Contradictions between the stages of planning. -/
inductive PlanFault where
  | unknownArity (predicate : String)
  | arityMismatch (predicate : String) (used : Nat) (recorded : Int)
  | positiveCount (count : Nat)
  | viewWidth (predicate : String) (columns : Nat) (arity : Int)
  | unknownOutput (name : String)
deriving DecidableEq, Repr

namespace PlanFault

open Text.Decimal in
/-- The wording of each cause. -/
def message : PlanFault → String
  | .unknownArity p => "predicate " ++ p ++ " has no known arity"
  | .arityMismatch p used recorded =>
    "predicate " ++ p ++ " has arity " ++ ofNat used ++ ", recorded " ++ ofInt recorded
  | .positiveCount n => "rule has " ++ ofNat n ++ " positive body predicates"
  | .viewWidth p columns arity =>
    "view over " ++ p ++ " has " ++ ofNat columns ++ " columns, predicate arity is " ++ ofInt arity
  | .unknownOutput name => "output predicate " ++ name ++ " does not appear in the program"

/-- A cause as a diagnostic. -/
def report (f : PlanFault) (file : String) (line : Int) : Diagnostic :=
  ⟨file, line, .consistency, f.message⟩

end PlanFault

end RulePlan
