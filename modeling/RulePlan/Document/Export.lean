import RulePlan.Document
import RulePlan.Yaml.Writer

/-!
# RulePlan.Document.Export — documents as structured text

Every field has a fixed name. Some fields are left out when they are empty; column combinations and
reasons are written on one line.
-/

namespace RulePlan

open Yaml

/-- A field that is left out when its text is empty. -/
def optionalText (name s : String) : List (String × Form) :=
  if s = "" then [] else [(name, .text s)]

/-- A field that is left out when its list is empty. -/
def optionalList (name : String) (l : List α) (form : List α → Form) : List (String × Form) :=
  if l.isEmpty then [] else [(name, form l)]

/-- The blocks of an order. -/
def OrderDoc.toForm (o : OrderDoc) : Form :=
  .map [("block1", .ofTexts o.block1), ("block2", .ofTexts o.block2),
    ("block3", .ofTexts o.block3)]

/-- A variable with its column. -/
def PositionDoc.toForm (p : PositionDoc) : Form :=
  .map [("var", .text p.var), ("position", .ofInt p.position)]

/-- Variables with their columns. -/
def PositionDoc.toForms (ps : List PositionDoc) : Form := .list false (ps.map toForm)

/-- An equation. -/
def EquationDoc.toForm (e : EquationDoc) : Form :=
  .map <|
    [("kind", .text e.kind)] ++ optionalText "orientation" e.orientation
      ++ [("rule", .ofInt e.rule), ("line", .ofInt e.line), ("head", .text e.head),
        ("head_args", .ofTexts e.headArgs), ("driving", .text e.driving)]
      ++ optionalList "positions" e.positions PositionDoc.toForms
      ++ optionalList "selections" e.selections .ofTexts
      ++ optionalText "consulting" e.consulting
      ++ optionalList "common_vars" e.commonVars PositionDoc.toForms
      ++ optionalList "view" e.view .ofTexts
      ++ optionalList "combination" e.combination .ofInts
      ++ (if e.bound = 0 then [] else [("bound", .ofInt e.bound)])
      ++ optionalText "view_name" e.viewName ++ optionalText "alias" e.viewAlias
      ++ optionalText "condition" e.condition ++ optionalText "assignment" e.assignment
      ++ optionalList "negated" e.negated .ofTexts

/-- A view. -/
def ViewDoc.toForm (v : ViewDoc) : Form :=
  .map [("name", .text v.name), ("alias", .text v.viewAlias),
    ("predicate", .text v.predicate), ("combination", .ofInts v.combination),
    ("bound", .ofInt v.bound)]

/-- A stratum. -/
def StratumDoc.toForm (s : StratumDoc) : Form :=
  .map <|
    [("index", .ofInt s.index), ("rules", .ofTexts s.rules),
      ("equations", .list false (s.equations.map EquationDoc.toForm))]
      ++ optionalList "views" s.views (fun vs => .list false (vs.map ViewDoc.toForm))
      ++ [("order", s.order.toForm)]

/-- A predicate to keep. -/
def SolutionDoc.toForm (s : SolutionDoc) : Form :=
  .map [("predicate", .text s.predicate), ("reasons", .list true (s.reasons.map .text))]

namespace Document

/-- A document as a tree. -/
def toForm (d : Document) : Form :=
  .map <|
    [("file", .text d.file)] ++ optionalText "key" d.key
      ++ [("extensional", .ofTexts d.extensional), ("intensional", .ofTexts d.intensional)]
      ++ optionalList "negated" d.negated .ofTexts
      ++ [("order", d.order.toForm), ("strata", .list false (d.strata.map StratumDoc.toForm)),
        ("solution", .list false (d.solution.map SolutionDoc.toForm))]
      ++ optionalList "output" d.output .ofTexts

/-- A document as text, indented by two. -/
def render (d : Document) : String := d.toForm.render 2

end Document

end RulePlan
