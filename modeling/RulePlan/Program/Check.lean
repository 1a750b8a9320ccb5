import RulePlan.Diagnostic
import RulePlan.Program
import RulePlan.Text.Quoted

/-!
# RulePlan.Program.Check — which rules a program may contain

A rule has at most two literals, at most one assignment or one test but not both, uses every
predicate with its one arity, and is safe: every variable it needs is bound by a positive literal,
the assigned variable aside. The checks run in that order and the first that fails is the cause.
-/

namespace RulePlan

/-- Causes for which a well-formed rule is refused. -/
inductive Refusal where
  | literalLimit (count : Nat)
  | assignmentLimit (count : Nat)
  | testLimit (count : Nat)
  | assignmentAndTest
  | arityChange (predicate : String) (used known : Nat) (line : Int)
  | aritiesInRule (predicate : String) (known used : Nat)
  | soleNegated (predicate : String)
  | bothNegated (first second : String)
  | negatedUnbound (vars : List String) (negated positive : String)
  | literalCount (count : Nat)
  | headUnbound (vars : List String)
  | targetNotInHead (target : String)
  | assignmentUnbound (target : String) (vars : List String)
  | testUnbound (source : String) (vars : List String)
deriving DecidableEq, Repr

namespace Refusal

open Text.Decimal in
/-- The wording of the safety causes that concern the literals and the head. -/
def reason : Refusal → String
  | .soleNegated p => "sole body predicate " ++ p ++ " is negated"
  | .bothNegated p q => "both body predicates " ++ p ++ " and " ++ q ++ " are negated"
  | .negatedUnbound vars n p =>
    "variables " ++ ", ".intercalate vars ++ " of negated predicate " ++ n ++ " are not bound by "
      ++ p
  | .literalCount n => "rule has " ++ ofNat n ++ " body predicates"
  | .headUnbound vars =>
    "head variables " ++ ", ".intercalate vars ++ " are not bound in the body"
  | _ => ""

open Text.Decimal in
/-- The wording of each cause. -/
def message : Refusal → String
  | .literalLimit n => "rule has " ++ ofNat n ++ " body predicates, at most 2 are allowed"
  | .assignmentLimit n => "rule has " ++ ofNat n ++ " assignments, at most 1 is allowed"
  | .testLimit n => "rule has " ++ ofNat n ++ " boolean expressions, at most 1 is allowed"
  | .assignmentAndTest => "assignment and boolean expression cannot appear in the same rule"
  | .arityChange p used known line =>
    "predicate " ++ p ++ " used with arity " ++ ofNat used ++ ", first defined with arity "
      ++ ofNat known ++ " at line " ++ ofInt line
  | .aritiesInRule p known used =>
    "predicate " ++ p ++ " used with arities " ++ ofNat known ++ " and " ++ ofNat used
      ++ " in the same rule"
  | .targetNotInHead t => "assignment target " ++ t ++ " does not appear in the head"
  | .assignmentUnbound t vars =>
    "assignment to " ++ t ++ " reads unbound variables " ++ ", ".intercalate vars
  | .testUnbound source vars =>
    "boolean expression " ++ Text.Quoted.encode source ++ " reads unbound variables "
      ++ ", ".intercalate vars
  | r => "unsafe rule: " ++ r.reason

/-- The category that a cause is reported in. -/
def category : Refusal → Category
  | .literalLimit _ | .assignmentLimit _ | .testLimit _ | .assignmentAndTest
  | .targetNotInHead _ => .structural
  | .arityChange .. | .aritiesInRule .. => .redefinition
  | _ => .safety

/-- A cause as a diagnostic. -/
def report (r : Refusal) (file : String) (line : Int) : Diagnostic :=
  ⟨file, line, r.category, r.message⟩

end Refusal

/-- What is known of a predicate: its arity and the line that fixed it. -/
structure ArityEntry where
  predicate : String
  arity : Nat
  line : Int
deriving DecidableEq, Repr

namespace Rule

/-- Checks how many elements of each kind the body has. -/
def checkStructure (r : Rule) : Except Refusal Unit :=
  let assignments := r.assignments.length
  let tests := r.tests.length
  if 2 < r.literals.length then .error (.literalLimit r.literals.length)
  else if 1 < assignments then .error (.assignmentLimit assignments)
  else if 1 < tests then .error (.testLimit tests)
  else if 0 < assignments ∧ 0 < tests then .error .assignmentAndTest
  else .ok ()

/-- Compares atoms with the known arities and with the atoms before them in the same rule, and
returns the arities that the rule fixes. -/
def newArities (known : List ArityEntry) (line : Int) :
    (fixed : List ArityEntry) → List Atom → Except Refusal (List ArityEntry)
  | fixed, [] => .ok fixed
  | fixed, a :: atoms =>
    match known.find? (·.predicate == a.predicate) with
    | some e =>
      if e.arity = a.arity then newArities known line fixed atoms
      else .error (.arityChange a.predicate a.arity e.arity e.line)
    | none =>
      match fixed.find? (·.predicate == a.predicate) with
      | some e =>
        if e.arity = a.arity then newArities known line fixed atoms
        else .error (.aritiesInRule a.predicate e.arity a.arity)
      | none => newArities known line (fixed ++ [⟨a.predicate, a.arity, line⟩]) atoms

/-- The variables that the literals bind for the head, or the cause for which they bind none. -/
def boundByLiterals : List Literal → Except Refusal (List String)
  | [l] =>
    if l.negated then .error (.soleNegated l.atom.predicate) else .ok l.atom.vars
  | [first, second] =>
    let mixed (neg pos : Atom) : Except Refusal (List String) :=
      match Names.missing neg.vars pos.vars with
      | [] => .ok pos.vars
      | vars => .error (.negatedUnbound vars neg.predicate pos.predicate)
    match first.negated, second.negated with
    | true, true => .error (.bothNegated first.atom.predicate second.atom.predicate)
    | true, false => mixed first.atom second.atom
    | false, true => mixed second.atom first.atom
    | false, false => .ok (first.atom.vars ++ second.atom.vars)
  | ls => .error (.literalCount ls.length)

/-- Checks that literals and head leave no variable unbound. -/
def checkSafety (r : Rule) : Except Refusal Unit := do
  let bound ← boundByLiterals r.literals
  let target := (r.assignment?.map Prod.fst).toList
  match Names.missing r.head.vars (target ++ bound) with
  | [] => .ok ()
  | vars => .error (.headUnbound vars)

/-- Checks that the assigned variable reaches the head and that its expression is bound. -/
def checkAssignment (r : Rule) : Except Refusal Unit :=
  match r.assignment? with
  | none => .ok ()
  | some (target, e) =>
    if target ∉ r.head.vars then .error (.targetNotInHead target)
    else
      match Names.missing e.vars r.positiveVariables with
      | [] => .ok ()
      | vars => .error (.assignmentUnbound target vars)

/-- Checks that the test is bound. -/
def checkTest (r : Rule) : Except Refusal Unit :=
  match r.test? with
  | none => .ok ()
  | some e =>
    match Names.missing e.vars r.positiveVariables with
    | [] => .ok ()
    | vars => .error (.testUnbound e.source vars)

/-- All checks in order; success returns the arities that the rule fixes. -/
def check (known : List ArityEntry) (r : Rule) : Except Refusal (List ArityEntry) := do
  r.checkStructure
  let fixed ← newArities known r.line [] r.atoms
  r.checkSafety
  r.checkAssignment
  r.checkTest
  .ok fixed

/-- The cause for which a rule is unsafe by its literals and its head. -/
def unsafety? (r : Rule) : Option Refusal :=
  match r.checkSafety with
  | .ok () => none
  | .error cause => some cause

end Rule

end RulePlan
