import RulePlan.Document
import RulePlan.Yaml.Decode

/-!
# RulePlan.Document.Import — documents read from structured text

The counterpart of the exported form. Fields that are missing are empty or zero.
-/

namespace RulePlan

open Yaml Yaml.Node

namespace OrderDoc

/-- The fields of an order. -/
def fields : Node.Fields OrderDoc
  | "block1" => some (taking intoTexts fun o v => { o with block1 := v })
  | "block2" => some (taking intoTexts fun o v => { o with block2 := v })
  | "block3" => some (taking intoTexts fun o v => { o with block3 := v })
  | _ => none

end OrderDoc

namespace PositionDoc

/-- The fields of a variable with its column. -/
def fields : Node.Fields PositionDoc
  | "var" => some (taking intoText fun p v => { p with var := v })
  | "position" => some (taking intoInt fun p v => { p with position := v })
  | _ => none

/-- Variables with their columns. -/
def intoList : Node → Reads (Option (List PositionDoc)) := Node.intoList (intoRecord fields default)

end PositionDoc

namespace EquationDoc

/-- The fields of an equation. -/
def fields : Node.Fields EquationDoc
  | "kind" => some (taking intoText fun e v => { e with kind := v })
  | "orientation" => some (taking intoText fun e v => { e with orientation := v })
  | "rule" => some (taking intoInt fun e v => { e with rule := v })
  | "line" => some (taking intoInt fun e v => { e with line := v })
  | "head" => some (taking intoText fun e v => { e with head := v })
  | "head_args" => some (taking intoTexts fun e v => { e with headArgs := v })
  | "driving" => some (taking intoText fun e v => { e with driving := v })
  | "positions" => some (taking PositionDoc.intoList fun e v => { e with positions := v })
  | "selections" => some (taking intoTexts fun e v => { e with selections := v })
  | "consulting" => some (taking intoText fun e v => { e with consulting := v })
  | "common_vars" => some (taking PositionDoc.intoList fun e v => { e with commonVars := v })
  | "view" => some (taking intoTexts fun e v => { e with view := v })
  | "combination" => some (taking intoInts fun e v => { e with combination := v })
  | "bound" => some (taking intoInt fun e v => { e with bound := v })
  | "view_name" => some (taking intoText fun e v => { e with viewName := v })
  | "alias" => some (taking intoText fun e v => { e with viewAlias := v })
  | "condition" => some (taking intoText fun e v => { e with condition := v })
  | "assignment" => some (taking intoText fun e v => { e with assignment := v })
  | "negated" => some (taking intoTexts fun e v => { e with negated := v })
  | _ => none

end EquationDoc

namespace ViewDoc

/-- The fields of a view. -/
def fields : Node.Fields ViewDoc
  | "name" => some (taking intoText fun w v => { w with name := v })
  | "alias" => some (taking intoText fun w v => { w with viewAlias := v })
  | "predicate" => some (taking intoText fun w v => { w with predicate := v })
  | "combination" => some (taking intoInts fun w v => { w with combination := v })
  | "bound" => some (taking intoInt fun w v => { w with bound := v })
  | _ => none

end ViewDoc

namespace StratumDoc

/-- The fields of a stratum. -/
def fields : Node.Fields StratumDoc
  | "index" => some (taking intoInt fun s v => { s with index := v })
  | "rules" => some (taking intoTexts fun s v => { s with rules := v })
  | "equations" =>
    some (taking (intoList (intoRecord EquationDoc.fields default))
      fun s v => { s with equations := v })
  | "views" =>
    some (taking (intoList (intoRecord ViewDoc.fields default)) fun s v => { s with views := v })
  | "order" =>
    some fun n s =>
      taking (intoRecord OrderDoc.fields s.order) (fun s v => { s with order := v }) n s
  | _ => none

end StratumDoc

namespace SolutionDoc

/-- The fields of a predicate to keep. -/
def fields : Node.Fields SolutionDoc
  | "predicate" => some (taking intoText fun s v => { s with predicate := v })
  | "reasons" => some (taking intoTexts fun s v => { s with reasons := v })
  | _ => none

end SolutionDoc

namespace Document

/-- The fields of a document. -/
def fields : Node.Fields Document
  | "file" => some (taking intoText fun d v => { d with file := v })
  | "key" => some (taking intoText fun d v => { d with key := v })
  | "extensional" => some (taking intoTexts fun d v => { d with extensional := v })
  | "intensional" => some (taking intoTexts fun d v => { d with intensional := v })
  | "negated" => some (taking intoTexts fun d v => { d with negated := v })
  | "order" =>
    some fun n d =>
      taking (intoRecord OrderDoc.fields d.order) (fun d v => { d with order := v }) n d
  | "strata" =>
    some (taking (intoList (intoRecord StratumDoc.fields default))
      fun d v => { d with strata := v })
  | "solution" =>
    some (taking (intoList (intoRecord SolutionDoc.fields default))
      fun d v => { d with solution := v })
  | "output" => some (taking intoTexts fun d v => { d with output := v })
  | _ => none

/-- Reads a document. -/
def parse? (s : String) : Option Document :=
  (Node.parse s).toOption.bind (Node.decode? fields default)

/-- The wording for a text that is no document. -/
def parseMessage (detail : String) : String := "failed to parse plan document: " ++ detail

end Document

end RulePlan
