import RulePlan.Store

/-!
# RulePlan.Store.File — a store as text

A store is kept in one file: a mapping from the paths of its artifacts to their kept forms.
-/

namespace RulePlan

open Yaml Yaml.Node

namespace Store

/-- The name of the file in the directory of a store. -/
def fileName : String := "artifacts.yaml"

/-- A store as text. -/
def render (s : Store) : String :=
  (Form.map (s.entries.map fun (path, value) => (path, .text value))).render 2

/-- Every path is the name of an artifact. -/
def fields : Node.Fields Store
  | path => some (taking intoText fun s value => { s with entries := insert path value s.entries })

/-- Reads a store from text. -/
def parse? (text : String) : Option Store :=
  (Node.parse text).toOption.bind (Node.decode? fields empty)

end Store

end RulePlan
