import RulePlan.Event

/-!
# RulePlan.Event.Collector — keeping events and passing them on

A collector with at least one handler is enabled: it keeps every event and hands it to each handler
in turn. Without handlers it drops everything.
-/

namespace RulePlan

/-- What receives events. -/
inductive Handler where
  | record (name : String)
  | log
  | discard
deriving DecidableEq, Repr

/-- Levels of log entries. -/
inductive LogLevel where
  | debug
  | info
  | warn
  | error
deriving DecidableEq, Repr

/-- The name of a level. -/
def LogLevel.label : LogLevel → String
  | .debug => "debug"
  | .info => "info"
  | .warn => "warn"
  | .error => "error"

/-- The level at which an event is logged: failures as errors, all else for debugging. -/
def Event.logLevel (e : Event) : LogLevel := if e.name = Event.compileError then .error else .debug

/-- The fields of a log entry of an event: the time taken, then the data by name. -/
def Event.logFields (e : Event) : List String := "latency" :: e.fields

/-- What handlers did with an event. -/
structure Delivery where
  recorded : List String
  logged : List Event
deriving DecidableEq, Repr

/-- Nothing delivered. -/
def Delivery.nothing : Delivery := ⟨[], []⟩

/-- The delivery of an event to one handler after others. -/
def Delivery.to (d : Delivery) (e : Event) : Handler → Delivery
  | .record name => { d with recorded := d.recorded ++ [name ++ ":" ++ e.name] }
  | .log => { d with logged := d.logged ++ [e] }
  | .discard => d

/-- Handlers and the events kept so far. -/
structure Collector where
  handlers : List Handler
  events : List Event

namespace Collector

/-- A collector for some handlers. -/
def ofHandlers (handlers : List Handler) : Collector := ⟨handlers, []⟩

/-- Whether events are kept. -/
def enabled (c : Collector) : Bool := !c.handlers.isEmpty

/-- Takes in an event and delivers it. -/
def add (c : Collector) (e : Event) : Collector × Delivery :=
  if c.enabled then
    ({ c with events := c.events ++ [e] }, c.handlers.foldl (fun d h => d.to e h) .nothing)
  else (c, .nothing)

/-- Forgets the events. -/
def reset (c : Collector) : Collector := { c with events := [] }

end Collector

end RulePlan
