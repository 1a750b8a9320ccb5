import RulePlan.Event
import RulePlan.Text.Fixed

/-!
# RulePlan.Event.Format — events as lines for people, with or without colour

Each known event has its own sentence; an unknown one shows its name and all its data. Every line
starts with the time taken, in microseconds below a millisecond and in tenths of milliseconds from
there on. Colour is the terminal escape of one of six colours around a piece of text.
-/

namespace RulePlan

/-- Terminal colours. -/
inductive Color where
  | red
  | green
  | yellow
  | blue
  | magenta
  | cyan
deriving DecidableEq, Repr

namespace Color

/-- The number of a colour in its escape sequence. -/
def code : Color → String
  | .red => "31"
  | .green => "32"
  | .yellow => "33"
  | .blue => "34"
  | .magenta => "35"
  | .cyan => "36"

/-- A text in a colour, if colours are used. -/
def paint (useColor : Bool) (c : Color) (text : String) : String :=
  if useColor then "\x1b[" ++ c.code ++ "m" ++ text ++ "\x1b[0m" else text

end Color

namespace Event

/-- A predicate name. -/
def renderPredicate (useColor : Bool) (name : String) : String := Color.cyan.paint useColor name

/-- A list of predicate names in brackets. -/
def renderPredicates (useColor : Bool) (names : List String) : String :=
  Color.blue.paint useColor "[" ++ Color.cyan.paint useColor (" ".intercalate names)
    ++ Color.blue.paint useColor "]"

/-- A view with its predicate, column combination and number of bound columns. -/
def renderView (useColor : Bool) (name predicate : String) (combination : List Int) (bound : Int) :
    String :=
  Color.blue.paint useColor "View(" ++ Color.cyan.paint useColor name ++ " on "
    ++ Color.cyan.paint useColor predicate ++ Color.blue.paint useColor "," ++ " "
    ++ Color.yellow.paint useColor
      ((Datum.numbers combination).render ++ ", " ++ Text.Decimal.ofInt bound ++ " bound")
    ++ Color.blue.paint useColor ")"

/-- The time taken, given in nanoseconds: green, from 50 ms on yellow, from 200 ms on red. -/
def renderLatency (useColor : Bool) (latency : Int) : String :=
  let micros := latency.tdiv 1000
  if latency < 1000000 then
    Color.green.paint useColor ("[" ++ Text.Decimal.ofInt micros ++ "µs]")
  else
    let color := if micros < 50000 then Color.green else if micros < 200000 then .yellow else .red
    color.paint useColor ("[" ++ Text.Fixed.tenths micros.natAbs 1000 ++ "ms]")

/-- The colour of a count by what is counted. -/
def countColor? : String → Option Color
  | "strata" => some .cyan
  | "equations" => some .magenta
  | "views" => some .blue
  | _ => none

/-- A count with its label. -/
def renderCount (useColor : Bool) (label : String) (count : Datum) : String :=
  let text := Text.Decimal.ofInt count.asNumber ++ " " ++ label
  match countColor? label with
  | some c => c.paint useColor text
  | none => text

/-- All data of an event, by field name. -/
def renderData (e : Event) : String :=
  "map[" ++ " ".intercalate (e.fields.map fun f => f ++ ":" ++ (e.get f).render) ++ "]"

/-- The line of an event without the time taken. -/
def sentence (useColor : Bool) (e : Event) : String :=
  let shown (field : String) : String := (e.get field).render
  let count (label : String) : String := renderCount useColor label (e.get (label ++ ".count"))
  let names (field : String) : String := renderPredicates useColor (e.get field).asTexts
  let mark (c : Color) (text : String) : String := c.paint useColor text
  if e.name = compileInvoked then
    mark .yellow "===" ++ " Compiling " ++ shown "file" ++ " (" ++ count "lines" ++ ")"
  else if e.name = compileCompleted then
    if (e.get "success").isTrue then
      mark .green "===" ++ " Compiled " ++ count "rules" ++ " into " ++ count "strata" ++ ", "
        ++ count "equations" ++ " and " ++ count "views" ++ "."
    else mark .red "✗" ++ " Compilation failed: " ++ shown "error"
  else if e.name = ruleAccepted then
    "Rule " ++ shown "line" ++ " (type " ++ shown "type" ++ "): " ++ shown "rule"
  else if e.name = ingestCompleted then
    "Ingested " ++ count "rules" ++ ": intensional " ++ names "intensional" ++ ", extensional "
      ++ names "extensional" ++ ", negated " ++ names "negated"
  else if e.name = relocated then
    "Rule " ++ shown "line" ++ (if (e.get "negated").isTrue then " negating " else " consuming ")
      ++ renderPredicate useColor (shown "predicate") ++ " moved from stratum " ++ shown "from"
      ++ " to " ++ shown "to"
  else if e.name = stratifyCompleted then
    mark .yellow "===" ++ " Stratified into " ++ count "strata" ++ " after " ++ shown "iterations"
      ++ " passes"
  else if e.name = orderComputed then
    "Ordering seed " ++ names "block1" ++ ", derived " ++ names "block2" ++ ", recursive "
      ++ names "block3"
  else if e.name = viewMinted then
    renderView useColor (shown "view") (shown "predicate") (e.get "combination").asNumbers
      (e.get "bound").asNumber
  else if e.name = aliasRenamed then
    mark .yellow "⚠️" ++ " alias " ++ shown "alias" ++ " renamed to " ++ shown "renamed" ++ " for "
      ++ shown "view"
  else if e.name = stratumCompiled then
    "Stratum " ++ shown "stratum" ++ " compiled with " ++ count "equations" ++ " and "
      ++ count "views"
  else if e.name = solutionComputed then "Solution set " ++ names "predicates"
  else if e.name = cacheHit ∨ e.name = cacheMiss then e.name ++ " " ++ shown "key"
  else if e.name = compileError then
    mark .red "✗" ++ " " ++ shown "file" ++ ":" ++ shown "line" ++ ": " ++ shown "category" ++ ": "
      ++ shown "message"
  else e.name ++ " " ++ e.renderData

/-- The line of an event. -/
def format (useColor : Bool) (e : Event) : String :=
  renderLatency useColor e.latency ++ " " ++ e.sentence useColor

end Event

end RulePlan
