import RulePlan.Command.Help
import RulePlan.Command.Outcome
import RulePlan.Document.Export
import RulePlan.Plan.Cache
import RulePlan.Report

/-!
# RulePlan.Command.Run — carrying out commands

A command line is taken apart, the configuration is loaded, and the command is carried out on its
surroundings. Compilation goes through a cache of plans and, if a directory for it is set, through a
store of artifacts: an artifact for the same request is given out as it was kept.
-/

namespace RulePlan.Command

/-! ## Compiling -/

/-- Outputs, mode and rendering of a compilation; options come before the configuration. -/
def settings (config : Config) (o : Options) :
    Except RunFault (List String × Mode × ArtifactKind) :=
  match config.mode? with
  | none => .error (.mode (.unknownMode config.diagnostics))
  | some mode =>
    let outputs := if o.outputs.isEmpty then config.outputs else o.outputs
    let format := if o.format = "" then config.format else o.format
    match ArtifactKind.ofName? format with
    | none => .error (.format format)
    | some kind => .ok (outputs, if o.accumulate then .accumulate else mode, kind)

/-- A plan in a rendering. -/
def renderPlan (kind : ArtifactKind) (p : Plan) : String :=
  if kind = .table then Report.ofPlan {} p else (Document.ofPlan p).render

/-- The kept artifact for a request, with the log entry that goes with it. -/
def keptArtifact (store : Option Store) (r : Request) (kind : ArtifactKind) :
    Option Artifact × List LogEntry :=
  match store with
  | none => (none, [])
  | some s =>
    match s.get kind r.key with
    | .ok a =>
      (some a, [⟨.debug, "artifact cache hit", [("file", .text r.file), ("key", .text r.key),
        ("kind", .text kind.label)]⟩])
    | .error .notFound => (none, [])
    | .error fault =>
      (none, [⟨.warn, "artifact cache unreadable", [("error", .text fault.message)]⟩])

/-- Keeps a rendering; failure to do so is only logged. -/
def keep (store : Option Store) (now : Timestamp) (a : Artifact) : Option Store × List LogEntry :=
  match store with
  | none => (none, [])
  | some s =>
    match s.put now a with
    | .ok s => (some s, [])
    | .error fault =>
      (some s, [⟨.warn, "failed to store artifact",
        [("key", .text a.key), ("error", .text fault.message)]⟩])

/-- The rendering of a request, from the store or by compiling it through the cache of plans, which
is read and written at the given times of the clock. -/
def produce (cache : Cache Plan) (store : Option Store) (readAt storeAt : Int) (now : Timestamp)
    (r : Request) (kind : ArtifactKind) : Cache Plan × Option Store × Outcome :=
  match keptArtifact store r kind with
  | (some a, logs) => (cache, store, { output := a.data, logs })
  | (none, logs) =>
    let (cache, t) := Plan.compileCached cache readAt storeAt r
    match t.result with
    | .error ds =>
      let failed := Outcome.ofDiagnostics r.file t.events ds
      (cache, store, { failed with logs := logs ++ failed.logs })
    | .ok plan =>
      let output := renderPlan kind plan
      let (store, notes) := keep store now ⟨r.key, r.file, kind, .zero, output⟩
      (cache, store, { output, events := t.events, logs := logs ++ notes })

/-- The report on a plan: on all of it, or on one stratum if its index is not negative. -/
def explainPlan (p : Plan) (stratum : Int) : Except RunFault String :=
  if stratum < 0 then .ok (Report.ofPlan {} p)
  else
    match p.strata[stratum.toNat]? with
    | some s => .ok (Report.stratum {} s)
    | none => .error (.stratum stratum p.strata.length)

variable {m : Type → Type} [Monad m]

/-- The store of a configuration, if it has a directory for one. -/
def openStore (host : Host m) (config : Config) : m (Except RunFault (Option Store)) := do
  if config.cacheDir = "" then return .ok none
  match ← host.openStore config.cacheDir with
  | .ok s => return .ok (some s)
  | .error detail => return .error (.storeUnavailable detail)

/-- Compiles a file through a cache. The clock is read for looking up and for storing alike before
the compilation, of which the duration is left out. -/
def compileFile (host : Host m) (config : Config) (cache : Cache Plan) (o : Options)
    (file : String) : m (Cache Plan × Outcome) := do
  match settings config o with
  | .error fault => return (cache, .failed fault)
  | .ok (outputs, mode, kind) =>
    match ← host.read file with
    | .error fault => return (cache, .failed (.source file fault))
    | .ok source =>
      match ← openStore host config with
      | .error fault => return (cache, .failed fault)
      | .ok store =>
        let (cache, store, outcome) :=
          produce cache store (← host.clock) (← host.clock) (← host.now)
            ⟨file, source, outputs, mode⟩ kind
        match store with
        | some s => host.saveStore config.cacheDir s
        | none => pure ()
        return (cache, outcome)

/-- A cache of plans as a configuration asks for it. -/
def newCache (config : Config) : Cache Plan := Cache.create config.cacheSize config.cacheTtl

/-- Compiles a file once more while it is watched: failures are logged, and watching goes on. -/
def recompile (host : Host m) (config : Config) (cache : Cache Plan) (o : Options)
    (file : String) : m (Cache Plan × Outcome) := do
  let (cache, outcome) ← compileFile host config cache o file
  let note : List LogEntry :=
    match outcome.fault with
    | none => [⟨.info, "compiled", [("file", .text file)]⟩]
    | some .reported => []
    | some fault =>
      [⟨.error, "compile failed", [("file", .text file), ("error", .text (fault.message ""))]⟩]
  return (cache, { outcome with logs := outcome.logs ++ note, fault := none })

/-! ## The other commands -/

/-- Explains a file. -/
def explainFile (host : Host m) (config : Config) (o : Options) (file : String) : m Outcome := do
  match settings config { o with format := "" } with
  | .error fault => return .failed fault
  | .ok (outputs, mode, _) =>
    match ← host.read file with
    | .error fault => return .failed (.source file fault)
    | .ok source =>
      let (_, t) := Plan.compileCached (newCache config) (← host.clock) (← host.clock)
        ⟨file, source, outputs, mode⟩
      match t.result with
      | .error ds => return .ofDiagnostics file t.events ds
      | .ok plan =>
        match explainPlan plan o.stratum with
        | .ok output => return { output, events := t.events }
        | .error fault => return { events := t.events, fault := some fault }

/-- Works on the store of a configuration, which must have one. -/
def withStore (host : Host m) (config : Config) (work : Store → Store × Outcome) : m Outcome := do
  match ← openStore host config with
  | .error fault => return .failed fault
  | .ok none => return .failed .noStore
  | .ok (some s) =>
    let (s, outcome) := work s
    host.saveStore config.cacheDir s
    return outcome

/-- Lists the artifacts of a rendering. -/
def listArtifacts (format : String) (s : Store) : Except RunFault String :=
  match ArtifactKind.ofName? format with
  | none => .error (.format format)
  | some kind =>
    match s.list kind with
    | .ok artifacts => .ok (Artifact.listing artifacts)
    | .error fault => .error (.artifact fault)

/-- Removes artifacts given by rendering and key, up to the first that is refused. -/
def removeEach (s : Store) : List (ArtifactKind × String) → Store × Outcome
  | [] => (s, {})
  | (kind, key) :: rest =>
    match s.delete kind key with
    | .ok s => removeEach s rest
    | .error fault => (s, .failed (.artifact fault))

/-- Removes the artifacts of some keys in every rendering. -/
def removeArtifacts (keys : List String) (s : Store) : Store × Outcome :=
  removeEach s (keys.flatMap fun key => [(.yaml, key), (.table, key)])

/-- Writes the standard configuration into a directory. -/
def initDirectory (host : Host m) (force : Bool) (dir : String) : m Outcome := do
  let path := Path.join dir Config.projectFile
  if !force && (← host.isPresent path) then return .failed (.alreadyThere path)
  match ← Config.standard.save host path with
  | .error fault => return .failed (.saving fault)
  | .ok () => return { output := "wrote " ++ path ++ "\n" }

/-- The version of the program. -/
def version : String := "0.1.0"

/-- Carries out a command under a configuration. Watching needs a loop outside and starts with one
compilation. -/
def perform (host : Host m) (config : Config) (i : Invocation) : m Outcome := do
  let first := i.arguments.headD ""
  match i.verb with
  | .compile => return (← compileFile host config (newCache config) i.options first).2
  | .watch => return (← recompile host config (newCache config) i.options first).2
  | .explain => explainFile host config i.options first
  | .cacheList =>
    withStore host config fun s =>
      match listArtifacts i.options.format s with
      | .ok output => (s, { output })
      | .error fault => (s, .failed fault)
  | .cacheRemove => withStore host config (removeArtifacts i.arguments)
  | .init => initDirectory host i.options.force (i.arguments.headD ".")
  | .version => return { output := Verb.program ++ " version " ++ version ++ "\n" }
  | .help =>
    match Verb.topic? i.arguments with
    | some v => return { output := v.helpText }
    | none => return { advice := Verb.unknownTopic i.arguments }
  | _ => return {}

/-! ## Whole runs -/

/-- Whether a name is that of a log level, regardless of case; no name means the usual one. -/
def isLogLevel (name : String) : Bool :=
  Text.LowerCase.ofText name
    ∈ ["", "debug", "info", "warn", "warning", "error", "dpanic", "panic", "fatal"]

/-- The configuration of an invocation; options come before the file. -/
def configure (o : Options) (c : Config) : Config :=
  { c with
    cacheDir := if o.cache = "" then c.cacheDir else o.cache
    verbose := o.verbose || c.verbose }

/-- Loads the configuration of an invocation. -/
def prepare (host : Host m) (ownLog : Bool) (o : Options) : m (Except RunFault Config) := do
  match ← Config.load host o.config with
  | .error fault => return .error (.configuration fault)
  | .ok c =>
    if ownLog && !isLogLevel o.logLevel then return .error (.logLevel o.logLevel)
    return .ok (configure o c)

/-- Runs a command line. `ownLog` says that the run writes a log of its own, at the level that its
options name. -/
def run (host : Host m) (ownLog : Bool) (line : List String) : m Outcome := do
  match Invocation.ofLine line with
  | .error fault => return .failed (.usage fault)
  | .ok i =>
    if i.help then return { output := i.verb.helpText }
    match ← prepare host ownLog i.options with
    | .error fault => return .failed fault
    | .ok config => return { ← perform host config i with verbose := config.verbose }

end RulePlan.Command
