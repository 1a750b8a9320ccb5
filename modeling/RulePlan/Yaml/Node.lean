/-!
# RulePlan.Yaml.Node — structured text that was read

A node is a scalar, a list or a mapping. A plain scalar stands for what its text resolves to, a
quoted scalar is text whatever it looks like, and a tagged scalar has the type of its tag. A
reference stands for a node that has been named before it; a reference inside of the node it names
has no end and can only be passed over.
-/

namespace RulePlan.Yaml

/-- A tree of structured text. -/
inductive Node where
  | plain (text : String)
  | quoted (text : String)
  | tagged (tag : String) (text : String)
  | list (items : List Node)
  | map (entries : List (Node × Node))
  | reference (name : String) (target : Node)
  | cycle (name : String)
deriving Inhabited, Repr

end RulePlan.Yaml
