import RulePlan.StratumPlan

/-!
# RulePlan.Solution — the predicates that must be kept as full relations

A predicate is kept if it is a requested output, if it drives a binary equation with a variable at
two places, if it is consulted with every column fixed, or if it is negated somewhere. Reasons are
listed in the order in which they are found: outputs, equations in order, negation.
-/

namespace RulePlan

/-- Why a predicate is kept. -/
inductive Reason where
  | output
  | equalCard
  | membership
  | negated
deriving DecidableEq, Repr

/-- The name of a reason. -/
def Reason.label : Reason → String
  | .output => "output"
  | .equalCard => "equal-card"
  | .membership => "membership"
  | .negated => "negated"

namespace Solution

/-- The requested outputs without blanks and repetitions, in order of name. -/
def outputs (requested : List String) : List String :=
  Names.sorted (Names.ofList (requested.filter (· ≠ "")))

/-- The predicates that an equation requires, with the reasons. -/
def ofEquation (e : Equation) : List (String × Reason) :=
  match e.consulting with
  | none => []
  | some c =>
    (if (Atom.mk e.driving e.drivingArgs).repeatsVariable then [(e.driving, .equalCard)] else [])
      ++ (if c.isMembership then [(c.predicate, .membership)] else [])

/-- All requirements in the order in which they are found. -/
def requirements (p : Program) (strata : List StratumPlan) (outputs : List String) :
    List (String × Reason) :=
  outputs.map (·, .output)
    ++ (strata.flatMap StratumPlan.equations).flatMap ofEquation
    ++ p.negated.map (·, .negated)

/-- The first output that is no predicate of the program. -/
def unknownOutput? (p : Program) (outputs : List String) : Option PlanFault :=
  (outputs.find? (!p.symbols.contains ·)).map .unknownOutput

/-- Predicates in order of name, each with its distinct reasons. -/
def ofRequirements (required : List (String × Reason)) : List (String × List Reason) :=
  (Names.sorted (Names.ofList (required.map Prod.fst))).map fun name =>
    (name, ((required.filter (·.1 == name)).map Prod.snd).eraseDups)

/-- The predicates to keep, with the reasons. -/
def ofPlans (p : Program) (strata : List StratumPlan) (outputs : List String) :
    Except PlanFault (List (String × List Reason)) :=
  match unknownOutput? p outputs with
  | some fault => .error fault
  | none => .ok (ofRequirements (requirements p strata outputs))

end Solution

end RulePlan
