import RulePlan.Text.Decimal

/-!
# RulePlan.Yaml.Form — what is written as structured text

A form is a value to be written, or a list or mapping of forms. Text is put into quotes where it
needs them; what is written verbatim reads as the value it is. Lists remember whether they stand on
one line.
-/

namespace RulePlan.Yaml

/-- A tree to be written. -/
inductive Form where
  | verbatim (text : String)
  | text (text : String)
  | list (inline : Bool) (items : List Form)
  | map (entries : List (String × Form))
deriving Inhabited, Repr

namespace Form

/-- A number. -/
def ofInt (n : Int) : Form := .verbatim (Text.Decimal.ofInt n)

/-- A truth value. -/
def ofBool (b : Bool) : Form := .verbatim (if b then "true" else "false")

/-- A list of texts, one on a line. -/
def ofTexts (l : List String) : Form := .list false (l.map .text)

/-- A list of numbers on one line. -/
def ofInts (l : List Int) : Form := .list true (l.map ofInt)

end Form

end RulePlan.Yaml
