import RulePlan.Program.Ingest
import RulePlan.Yaml.Decode
import RulePlan.Yaml.Writer

/-!
# RulePlan.Config — settings of the compiler

Settings have defaults. A file may change them, a second configuration may be laid over a first, and
the result is checked before use. Laid over another, a configuration changes only what it sets to
something other than nothing: a zero, an empty text or list, and `false` leave the setting below.
-/

namespace RulePlan

open Yaml Yaml.Node

/-- The settings of a run. The time to live of what is cached is in nanoseconds. -/
structure Config where
  outputs : List String := []
  diagnostics : String := ""
  cacheDir : String := ""
  cacheSize : Int := 0
  cacheTtl : Int := 0
  format : String := ""
  verbose : Bool := false
deriving DecidableEq, Repr

/-- Settings that cannot be used. -/
inductive ConfigFault where
  | unknownMode (name : String)
  | negativeSize
  | negativeTtl
  | unknownFormat (name : String)
  | emptyOutput
deriving DecidableEq, Repr

/-- The wording of each cause. -/
def ConfigFault.message : ConfigFault → String
  | .unknownMode name =>
    "compile.diagnostics must be " ++ Text.Quoted.encode Mode.failFast.label ++ " or "
      ++ Text.Quoted.encode Mode.accumulate.label ++ ", got " ++ Text.Quoted.encode name
  | .negativeSize => "cache.size must not be negative"
  | .negativeTtl => "cache.ttl must not be negative"
  | .unknownFormat name => "output.format must be yaml or table, got " ++ Text.Quoted.encode name
  | .emptyOutput => "compile.outputs contains an empty predicate name"

namespace Config

/-- The name of a configuration file of a project. -/
def projectFile : String := "solvergen.yaml"

/-- The settings without any file. -/
def standard : Config :=
  { diagnostics := Mode.failFast.label
    cacheSize := 128
    cacheTtl := 24 * 3600000000000
    format := "yaml" }

/-- The diagnostic mode; no name means to stop at the first fault. -/
def mode? (c : Config) : Option Mode :=
  if c.diagnostics = "" ∨ c.diagnostics = Mode.failFast.label then some .failFast
  else if c.diagnostics = Mode.accumulate.label then some .accumulate
  else none

/-- The first cause for which settings cannot be used. -/
def fault? (c : Config) : Option ConfigFault :=
  if c.mode?.isNone then some (.unknownMode c.diagnostics)
  else if c.cacheSize < 0 then some .negativeSize
  else if c.cacheTtl < 0 then some .negativeTtl
  else if c.format ≠ "yaml" ∧ c.format ≠ "table" then some (.unknownFormat c.format)
  else if "" ∈ c.outputs then some .emptyOutput
  else none

/-- Lays the configuration `top` over another. -/
def merge (c top : Config) : Config :=
  { outputs := if top.outputs.isEmpty then c.outputs else top.outputs
    diagnostics := if top.diagnostics = "" then c.diagnostics else top.diagnostics
    cacheDir := if top.cacheDir = "" then c.cacheDir else top.cacheDir
    cacheSize := if top.cacheSize = 0 then c.cacheSize else top.cacheSize
    cacheTtl := if top.cacheTtl = 0 then c.cacheTtl else top.cacheTtl
    format := if top.format = "" then c.format else top.format
    verbose := c.verbose || top.verbose }

/-! ## Files -/

/-- A configuration as a form. -/
def toForm (c : Config) : Form :=
  .map
    [("compile", .map [("outputs", .ofTexts c.outputs), ("diagnostics", .text c.diagnostics)]),
      ("cache", .map [("dir", .text c.cacheDir), ("size", .ofInt c.cacheSize),
        ("ttl", .verbatim (Duration.render c.cacheTtl))]),
      ("output", .map [("format", .text c.format), ("verbose", .ofBool c.verbose)])]

/-- A configuration as text, indented by four. -/
def render (c : Config) : String := c.toForm.render 4

/-- The settings of compilation. -/
def compileFields : Node.Fields Config
  | "outputs" => some (taking intoTexts fun c v => { c with outputs := v })
  | "diagnostics" => some (taking intoText fun c v => { c with diagnostics := v })
  | _ => none

/-- The settings of the cache. -/
def cacheFields : Node.Fields Config
  | "dir" => some (taking intoText fun c v => { c with cacheDir := v })
  | "size" => some (taking intoInt fun c v => { c with cacheSize := v })
  | "ttl" => some (taking intoDuration fun c v => { c with cacheTtl := v })
  | _ => none

/-- The settings of output. -/
def outputFields : Node.Fields Config
  | "format" => some (taking intoText fun c v => { c with format := v })
  | "verbose" => some (taking intoBool fun c v => { c with verbose := v })
  | _ => none

/-- A section of settings. -/
def sectionOf (fields : Node.Fields Config) (n : Node) (c : Config) : Reads Config :=
  taking (intoRecord fields c) (fun _ v => v) n c

/-- The sections. -/
def fields : Node.Fields Config
  | "compile" => some (sectionOf compileFields)
  | "cache" => some (sectionOf cacheFields)
  | "output" => some (sectionOf outputFields)
  | _ => none

/-- Reads the text of a configuration file; what it leaves out is standard. -/
def parse? (s : String) : Option Config :=
  (Node.parse s).toOption.bind (Node.decode? fields standard)

end Config

end RulePlan
