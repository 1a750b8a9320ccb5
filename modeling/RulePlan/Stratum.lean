import RulePlan.Diagnostic
import RulePlan.Graph.Components
import RulePlan.Program

/-!
# RulePlan.Stratum — rules in layers, negation always on a finished layer

Every rule starts at level zero. A rule is moved up until it stands at least as high as all rules
that define the predicates it reads, and above those that define a predicate it negates. Levels are
then numbered without gaps; a stratum lists its rules in source order. A program in which a rule
negates a predicate of the recursive component of its own head has no such layers and is refused
before any rule moves.
-/

namespace RulePlan

/-- A layer: its number and the places of its rules in the program. -/
structure Stratum where
  index : Nat
  rules : List Nat
deriving DecidableEq, Repr

/-- A rule moved up on account of a literal of its body. -/
structure Move where
  line : Int
  rule : String
  predicate : String
  negated : Bool
  fromLevel : Nat
  toLevel : Nat
deriving DecidableEq, Repr

/-- Causes for which a program has no layers. -/
inductive LayerFault where
  | negativeCycle (line : Int) (head negated : String) (members : List String)
  | divergence (passes : Nat)
deriving DecidableEq, Repr

namespace LayerFault

/-- The wording of each cause. -/
def message : LayerFault → String
  | .negativeCycle _ head negated members =>
    head ++ " depends negatively on " ++ negated ++ " within recursive cycle " ++ bracketed members
  | .divergence n =>
    "stratification did not converge after " ++ Text.Decimal.ofNat n ++ " iterations"

/-- The line of the rule to blame, zero if there is no single one. -/
def line : LayerFault → Int
  | .negativeCycle line .. => line
  | .divergence _ => 0

/-- A cause as a diagnostic. -/
def report (f : LayerFault) (file : String) : Diagnostic := ⟨file, f.line, .cycle, f.message⟩

end LayerFault

/-- The outcome of layering: the moves made, and the strata with the number of passes. -/
structure Layering where
  moves : List Move
  result : Except LayerFault (List Stratum × Nat)

namespace Layering

/-! ## Recursion through negation -/

/-- The component number of a node; a node outside the graph counts with the first component. -/
def componentNumber (components : List Names) (x : String) : Nat :=
  (components.findIdx? (·.contains x)).getD 0

/-- The first negated literal that shares a component with the head of its rule. -/
def negativeCycle? (p : Program) : Option LayerFault :=
  let components := p.graph.components
  p.rules.findSome? fun r =>
    let home := componentNumber components r.head.predicate
    (r.negative.find? fun a => componentNumber components a.predicate == home).map fun a =>
      .negativeCycle r.line r.head.predicate a.predicate (Names.sorted (components[home]?.getD []))

/-! ## Levels -/

/-- The highest level of the rules that define a predicate, if any rule does. -/
def definedAt? (rules : List Rule) (levels : List Nat) (predicate : String) : Option Nat :=
  (((rules.zip levels).filter (·.1.head.predicate == predicate)).map Prod.snd).max?

/-- The least level that a literal allows its rule. -/
def needed? (rules : List Rule) (levels : List Nat) (l : Literal) : Option Nat :=
  (definedAt? rules levels l.atom.predicate).map fun m => if l.negated then m + 1 else m

/-- Levels of the rules and the moves that led to them. -/
structure State where
  levels : List Nat
  moves : List Move

/-- Moves rule number `i` up if a literal of its body requires it. -/
def settleLiteral (rules : List Rule) (r : Rule) (i : Nat) (s : State) (l : Literal) : State :=
  let level := s.levels.getD i 0
  match needed? rules s.levels l with
  | some need =>
    if level < need then
      ⟨s.levels.set i need,
        s.moves ++ [⟨r.line, r.render, l.atom.predicate, l.negated, level, need⟩]⟩
    else s
  | none => s

/-- Moves rule number `i` up as its literals require, one after the other. -/
def settleRule (rules : List Rule) (s : State) (ri : Rule × Nat) : State :=
  ri.1.literals.foldl (settleLiteral rules ri.1 ri.2) s

/-- One pass over all rules. -/
def pass (rules : List Rule) (levels : List Nat) : State :=
  rules.zipIdx.foldl (settleRule rules) ⟨levels, []⟩

/-! ## Strata -/

/-- The strata of given levels: levels in ascending order without gaps. -/
def strataOf (levels : List Nat) : List Stratum :=
  let used := (levels.eraseDups).mergeSort
  used.zipIdx.map fun (level, index) =>
    ⟨index, (levels.zipIdx.filter (·.1 == level)).map Prod.snd⟩

/-- Passes over the rules until one moves nothing; `allowed` passes remain after `done` of them. -/
def settle (rules : List Rule) :
    (allowed done : Nat) → (levels : List Nat) → (moves : List Move) → Layering
  | 0, done, _, moves => ⟨moves, .error (.divergence (done + 1))⟩
  | allowed + 1, done, levels, moves =>
    let s := pass rules levels
    if s.moves = [] then ⟨moves, .ok (strataOf levels, done + 1)⟩
    else settle rules allowed (done + 1) s.levels (moves ++ s.moves)

/-- The layers of a program. -/
def ofProgram (p : Program) : Layering :=
  match negativeCycle? p with
  | some fault => ⟨[], .error fault⟩
  | none => settle p.rules (p.rules.length + 1) 0 (p.rules.map fun _ => 0) []

end Layering

/-- The number of the stratum that holds a rule. -/
def stratumOf? (strata : List Stratum) (rule : Nat) : Option Nat :=
  (strata.find? (·.rules.contains rule)).map Stratum.index

end RulePlan
