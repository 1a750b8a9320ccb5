/-!
# RulePlan.Yaml.Token — the tokens of structured text

Structure that is given by columns alone has tokens of its own: where a block of entries starts and
ends, and that what follows is a key.
-/

namespace RulePlan.Yaml

/-- A tag as it is written: a handle and what follows it. -/
structure TagName where
  handle : String
  suffix : String
deriving DecidableEq, Repr

/-- What a token says. -/
inductive Token.Kind where
  | streamStart
  | streamEnd
  | version (major minor : Nat)
  | tagPrefix (handle stem : String)
  | documentStart
  | documentEnd
  | listStart
  | mapStart
  | blockEnd
  | bracketOpen
  | bracketClose
  | braceOpen
  | braceClose
  | comma
  | dash
  | key
  | value
  | reference (name : String)
  | anchor (name : String)
  | tag (name : TagName)
  | scalar (plain : Bool) (text : String)
deriving DecidableEq, Repr

/-- A token with the line it starts on. -/
structure Token where
  kind : Token.Kind
  line : Nat
deriving DecidableEq, Repr

end RulePlan.Yaml
