import RulePlan.Equation
import RulePlan.EvalOrder
import RulePlan.Stratum

/-!
# RulePlan.StratumPlan — the equations, views and predicate order of one stratum

The rules of a stratum are compiled in order against one registry of views, which all strata share.
A rule with one positive atom gives one equation, a rule with two gives one for each atom that can
drive, the first atom first.
-/

namespace RulePlan

/-- The views that the equations of a stratum consult: the views in order of first use, the view of
each alias, the views of each predicate, and all views by bound columns, most first, then name. -/
structure ViewsData where
  views : List View
  aliases : List (String × String)
  predicateViews : List (String × List String)
  order : List String
deriving DecidableEq, Repr

namespace ViewsData

/-- The views that equations consult. -/
def ofEquations (equations : List Equation) (registry : ViewRegistry) : ViewsData :=
  let consulted := equations.filterMap Equation.consulting
  let names := Names.ofList (consulted.map Consultation.viewName)
  let views := names.filterMap registry.lookup
  let ordered := (views.mergeSort fun a b => decide (a.name ≤ b.name)).mergeSort
    fun a b => b.bound ≤ a.bound
  { views
    aliases := (consulted.map fun c => (c.viewAlias, c.viewName)).eraseDups
    predicateViews := (Names.ofList (views.map View.predicate)).map fun p =>
      (p, (views.filter (·.predicate == p)).map View.name)
    order := ordered.map View.name }

end ViewsData

/-- Everything that one stratum needs. -/
structure StratumPlan where
  index : Nat
  rules : List Rule
  equations : List Equation
  views : ViewsData
  order : EvalOrder
deriving DecidableEq, Repr

/-- The outcome of compiling rules: the registry afterwards, what it reported, and the equations. -/
structure Compilation where
  registry : ViewRegistry
  notices : List ViewNotice
  result : Except Diagnostic (List Equation)

namespace Compilation

/-- Checks the atoms of a rule against the recorded arities. -/
def checkArities (p : Program) : List Atom → Except PlanFault Unit
  | [] => .ok ()
  | a :: atoms =>
    match p.arity? a.predicate with
    | none => .error (.unknownArity a.predicate)
    | some n =>
      if n = a.arity then checkArities p atoms
      else .error (.arityMismatch a.predicate a.arity n)

/-- The equation of a rule driven by one positive atom and consulting the other. -/
def binary (p : Program) (registry : ViewRegistry) (r : Rule) (number : Nat)
    (orientation : Orientation) (driving consulting : Atom) : Compilation :=
  let columns := Equation.Columns.ofArgs driving.args
  let args := consulting.args.map columns.term
  let arrangement := Arrangement.ofTerms args
  let width := arrangement.combination.length
  let arity := (p.arity? consulting.predicate).getD 0
  if width ≠ arity then
    ⟨registry, [], .error
      ((PlanFault.viewWidth consulting.predicate width arity).report p.file r.line)⟩
  else
    let (view, registry, minted) :=
      registry.resolve consulting.predicate (arrangement.combination.map Int.ofNat)
        arrangement.bound
    let (viewAlias, registry, renamed) := registry.assignAlias view consulting.args number
    let consultation : Consultation :=
      { orientation
        predicate := consulting.predicate
        args
        common := columns.common consulting.args
        view := arrangement.terms
        combination := arrangement.combination
        bound := arrangement.bound
        viewName := view.name
        viewAlias }
    ⟨registry, minted ++ renamed, .ok [.ofRule r number driving (some consultation)]⟩

/-- Continues after a success with another step and joins their equations. -/
def andThen (c : Compilation) (next : ViewRegistry → Compilation) : Compilation :=
  match c.result with
  | .error d => ⟨c.registry, c.notices, .error d⟩
  | .ok equations =>
    let more := next c.registry
    ⟨more.registry, c.notices ++ more.notices, more.result.map (equations ++ ·)⟩

/-- The equations of one rule. -/
def ofRule (p : Program) (registry : ViewRegistry) (r : Rule) (number : Nat) : Compilation :=
  match checkArities p r.atoms with
  | .error fault => ⟨registry, [], .error (fault.report p.file r.line)⟩
  | .ok () =>
    match r.positive with
    | [a] => ⟨registry, [], .ok [.ofRule r number a none]⟩
    | [a, b] =>
      (binary p registry r number .firstDrives a b).andThen fun registry =>
        binary p registry r number .secondDrives b a
    | atoms =>
      ⟨registry, [], .error ((PlanFault.positiveCount atoms.length).report p.file r.line)⟩

/-- The equations of rules given by their places, in order. -/
def ofRules (p : Program) (registry : ViewRegistry) : List (Rule × Nat) → Compilation
  | [] => ⟨registry, [], .ok []⟩
  | (r, i) :: rest =>
    (ofRule p registry r (i + 1)).andThen fun registry => ofRules p registry rest

end Compilation

namespace StratumPlan

/-- The outcome of compiling a stratum. -/
structure Outcome where
  registry : ViewRegistry
  notices : List ViewNotice
  result : Except Diagnostic StratumPlan

/-- Compiles a stratum. -/
def ofStratum (p : Program) (order : EvalOrder) (registry : ViewRegistry) (s : Stratum) : Outcome :=
  let rules := s.rules.filterMap fun i => p.rules[i]?.map (·, i)
  let c := Compilation.ofRules p registry rules
  let members := rules.flatMap fun (r, _) => r.atoms.map Atom.predicate
  ⟨c.registry, c.notices, c.result.map fun equations =>
    { index := s.index
      rules := rules.map Prod.fst
      equations
      views := .ofEquations equations c.registry
      order := order.restrict members }⟩

end StratumPlan

end RulePlan
