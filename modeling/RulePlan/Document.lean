import RulePlan.Plan

/-!
# RulePlan.Document — the exported form of a plan

A document is a plan in plain text fields, ready to be written and read back. Terms, selections,
conditions and negated atoms appear as their one-line forms.
-/

namespace RulePlan

/-- The three blocks of the evaluation order. -/
structure OrderDoc where
  block1 : List String
  block2 : List String
  block3 : List String
deriving DecidableEq, Repr, Inhabited

/-- A variable with its column. -/
structure PositionDoc where
  var : String
  position : Int
deriving DecidableEq, Repr, Inhabited

/-- An equation. Fields that do not apply are empty or zero. -/
structure EquationDoc where
  kind : String
  orientation : String
  rule : Int
  line : Int
  head : String
  headArgs : List String
  driving : String
  positions : List PositionDoc
  selections : List String
  consulting : String
  commonVars : List PositionDoc
  view : List String
  combination : List Int
  bound : Int
  viewName : String
  viewAlias : String
  condition : String
  assignment : String
  negated : List String
deriving DecidableEq, Repr, Inhabited

/-- A view. -/
structure ViewDoc where
  name : String
  viewAlias : String
  predicate : String
  combination : List Int
  bound : Int
deriving DecidableEq, Repr, Inhabited

/-- A stratum. -/
structure StratumDoc where
  index : Int
  rules : List String
  equations : List EquationDoc
  views : List ViewDoc
  order : OrderDoc
deriving DecidableEq, Repr, Inhabited

/-- A predicate to keep, with the reasons. -/
structure SolutionDoc where
  predicate : String
  reasons : List String
deriving DecidableEq, Repr, Inhabited

/-- An exported plan. -/
structure Document where
  file : String
  key : String
  extensional : List String
  intensional : List String
  negated : List String
  order : OrderDoc
  strata : List StratumDoc
  solution : List SolutionDoc
  output : List String
deriving DecidableEq, Repr, Inhabited

namespace Document

/-- The blocks of an order. -/
def ofOrder (o : EvalOrder) : OrderDoc := ⟨o.seeds, o.derived, o.cyclic⟩

/-- A variable with its column. -/
def ofPlacement (p : Placement) : PositionDoc := ⟨p.name, p.column⟩

/-- An equation. -/
def ofEquation (e : Equation) : EquationDoc :=
  { kind := e.kind
    orientation := (e.consulting.map (·.orientation.label)).getD ""
    rule := e.rule
    line := e.line
    head := e.head
    headArgs := e.headArgs.map Term.render
    driving := e.driving
    positions := e.positions.map ofPlacement
    selections := e.selections.map Selection.render
    consulting := (e.consulting.map Consultation.predicate).getD ""
    commonVars := (e.consulting.map fun c => c.common.map ofPlacement).getD []
    view := (e.consulting.map fun c => c.view.map Term.render).getD []
    combination := (e.consulting.map fun c => c.combination.map Int.ofNat).getD []
    bound := (e.consulting.map fun c => (c.bound : Int)).getD 0
    viewName := (e.consulting.map Consultation.viewName).getD ""
    viewAlias := (e.consulting.map Consultation.viewAlias).getD ""
    condition := (e.condition.map Operand.renderAll).getD ""
    assignment := (e.assignment.map fun (t, v) => renderAssignment t v).getD ""
    negated := e.negated.map NegatedAtom.render }

/-- The alias that a view is listed with: the first by name. -/
def aliasOf (d : ViewsData) (name : String) : String :=
  (Names.sorted ((d.aliases.filter (·.2 == name)).map Prod.fst)).headD ""

/-- The views of a stratum, in view order. -/
def ofViews (d : ViewsData) : List ViewDoc :=
  d.order.filterMap fun name =>
    (d.views.find? (·.name == name)).map fun v =>
      ⟨v.name, aliasOf d name, v.predicate, v.combination, v.bound⟩

/-- A stratum. -/
def ofStratum (s : StratumPlan) : StratumDoc :=
  ⟨s.index, s.rules.map Rule.render, s.equations.map ofEquation, ofViews s.views, ofOrder s.order⟩

/-- The exported form of a plan. -/
def ofPlan (p : Plan) : Document :=
  { file := p.file
    key := p.key
    extensional := Names.sorted p.program.extensional
    intensional := Names.sorted p.program.intensional
    negated := Names.sorted p.program.negated
    order := ofOrder p.order
    strata := p.strata.map ofStratum
    solution := p.solution.map fun (name, reasons) => ⟨name, reasons.map Reason.label⟩
    output := p.output }

end Document

end RulePlan
