import RulePlan.Document
import RulePlan.Table
import RulePlan.Text.Bytes

/-!
# RulePlan.Report — a plan as Markdown tables

The report shows the order of evaluation, then for every stratum its rules, equations and views,
then the predicates to keep with the reasons. Long cells are cut to a number of bytes and end in a
mark.
-/

namespace RulePlan

/-- How cells are cut: the most bytes a cell may have, if there is a limit, and the mark that ends a
cut cell. -/
structure Layout where
  limit : Option Nat := some 60
  mark : String := "..."
deriving DecidableEq, Repr

namespace Layout

/-- A limit that is not positive is none. -/
def ofLimit (limit : Int) (mark : String) : Layout :=
  ⟨if 0 < limit then some limit.toNat else none, mark⟩

/-- The leading bytes of a text as a text. A character that does not fit whole leaves a replacement
for each of its bytes that does. -/
def takeBytes (room : Nat) (s : String) : String := Text.ofBytes (s.toUTF8.toList.take room)

/-- A text as it stands in a cell. -/
def cut (l : Layout) (s : String) : String :=
  match l.limit with
  | none => s
  | some most =>
    if Text.byteLength s ≤ most then s
    else takeBytes (most - Text.byteLength l.mark) s ++ l.mark

/-- A table with cut cells; without rows only the titles are listed. -/
def table (l : Layout) (titles : List String) (rows : List (List String)) : String :=
  if rows.isEmpty then "_Columns: " ++ bracketed titles ++ "_\n\n_No rows_\n"
  else (Table.mk (titles.map ({ title := · })) (rows.map (·.map l.cut))).render

end Layout

namespace Report

/-- The three blocks of the order. -/
def order (l : Layout) (o : EvalOrder) : String :=
  l.table ["Block", "Predicates"]
    [["1", " ".intercalate o.seeds], ["2", " ".intercalate o.derived],
      ["3", " ".intercalate o.cyclic]]

/-- The rules of a stratum. -/
def rules (l : Layout) (rs : List Rule) : String :=
  l.table ["Line", "Type", "Rule"]
    (rs.map fun r => [Text.Decimal.ofInt r.line, Text.Decimal.ofNat r.type, r.render])

/-- Condition, assignment and negated atoms of an equation. -/
def attachments (e : Equation) : String :=
  "; ".intercalate
    ((e.condition.map Operand.renderAll).toList
      ++ (e.assignment.map fun (target, value) => renderAssignment target value).toList
      ++ e.negated.map NegatedAtom.render)

/-- The cells of an equation. -/
def equationRow (e : Equation) : List String :=
  let head := e.head ++ Term.renderAll e.headArgs
  match e.consulting with
  | none => [Text.Decimal.ofNat e.rule, "1", head, e.driving, "", "", "", attachments e]
  | some c =>
    [Text.Decimal.ofNat e.rule, c.orientation.label, head, e.driving,
      c.predicate ++ Term.renderAll c.view, c.viewName, c.viewAlias, attachments e]

/-- The equations of a stratum. -/
def equations (l : Layout) (es : List Equation) : String :=
  l.table ["Rule", "Type", "Head", "Driving", "Consulting", "View", "Alias", "Attached"]
    (es.map equationRow)

/-- The views of a stratum. -/
def views (l : Layout) (d : ViewsData) : String :=
  l.table ["View", "Alias", "Predicate", "Combination", "Bound"]
    ((Document.ofViews d).map fun v =>
      [v.name, v.viewAlias, v.predicate, bracketed (v.combination.map Text.Decimal.ofInt),
        Text.Decimal.ofInt v.bound])

/-- A stratum under its title. -/
def stratum (l : Layout) (s : StratumPlan) : String :=
  "## Stratum " ++ Text.Decimal.ofNat s.index ++ "\n\n" ++ rules l s.rules ++ "\n"
    ++ equations l s.equations
    ++ (if s.views.order.isEmpty then "" else "\n" ++ views l s.views)

/-- The predicates to keep. -/
def solution (l : Layout) (kept : List (String × List Reason)) : String :=
  l.table ["Predicate", "Reasons"]
    (kept.map fun (name, reasons) => [name, ", ".intercalate (reasons.map Reason.label)])

/-- The whole report. -/
def ofPlan (l : Layout) (p : Plan) : String :=
  "# " ++ p.file ++ "\n\n## Ordering\n\n" ++ order l p.order
    ++ String.join (p.strata.map fun s => "\n" ++ stratum l s)
    ++ "\n## Solution\n\n" ++ solution l p.solution

end Report

end RulePlan
