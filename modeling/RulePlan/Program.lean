import RulePlan.Graph
import RulePlan.Rule
import RulePlan.SymbolTable

/-!
# RulePlan.Program — an accepted set of rules with what is known about its predicates

Intensional predicates are the heads of rules, extensional ones are only ever read, negated ones
stand negated in some body. The dependency graph has an edge from every predicate of a body to the
head of the rule.
-/

namespace RulePlan

/-- Rules and the facts about their predicates that planning uses. -/
structure Program where
  file : String
  rules : List Rule
  intensional : Names
  extensional : Names
  negated : Names
  graph : Graph
  arity : List (String × Int)
  symbols : SymbolTable

namespace Program

/-- The edges that a rule adds to the dependency graph. -/
def addRule (g : Graph) (r : Rule) : Graph :=
  r.literals.foldl (fun g l => g.addEdge l.atom.predicate r.head.predicate) g

/-- The dependency graph of rules. -/
def graphOf (rules : List Rule) : Graph := rules.foldl addRule .empty

/-- The program of accepted rules. -/
def ofRules (file : String) (rules : List Rule) (arity : List (String × Int))
    (symbols : SymbolTable) : Program :=
  let intensional := Names.ofList (rules.map (·.head.predicate))
  let graph := graphOf rules
  { file, rules, intensional, graph, arity, symbols
    extensional := graph.keys.filter (· ∉ intensional)
    negated := Names.ofList (rules.flatMap fun r => r.negative.map Atom.predicate) }

/-- Producers and heads, in order of name. -/
def predicates (p : Program) : List String := Names.sorted (Names.addAll p.graph.keys p.intensional)

/-- The places of the rules with a given head. -/
def definingRules (p : Program) (predicate : String) : List Nat :=
  (p.rules.zipIdx.filter (·.1.head.predicate == predicate)).map Prod.snd

/-- The recorded arity of a predicate. -/
def arity? (p : Program) (predicate : String) : Option Int := p.arity.lookup predicate

end Program

end RulePlan
