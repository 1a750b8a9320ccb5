import RulePlan.Command.Run
import RulePlan.Event.Format
import RulePlan.Store.File

/-!
# RulePlan.Main — the command line on a file system

The outermost layer: it gives runs access to files and the clock, and prints what they answer. The
plan goes to the standard output; events, log entries and the cause of failure go to the standard
error output.
-/

namespace RulePlan.Main

open Command

/-- The cause of a failed attempt to open a file. -/
def openCause (e : IO.Error) : PathCause :=
  match e with
  | .noFileOrDirectory .. => .missing
  | .inappropriateType .. => .notDirectory
  | e => .other (toString e)

/-- Reads a file. -/
def readPath (path : String) : IO (Except PathFault String) := do
  match ← (IO.FS.Handle.mk path .read).toBaseIO with
  | .error e => return .error ⟨"open", path, openCause e⟩
  | .ok handle =>
    match ← handle.readToEnd.toBaseIO with
    | .error _ => return .error ⟨"read", path, .isDirectory⟩
    | .ok text => return .ok text

/-- Writes a file. -/
def writePath (path text : String) : IO (Except PathFault Unit) := do
  match ← (IO.FS.writeFile path text).toBaseIO with
  | .error (.inappropriateType ..) => return .error ⟨"open", path, .isDirectory⟩
  | .error e => return .error ⟨"open", path, openCause e⟩
  | .ok () => return .ok ()

/-- Makes a directory and those above it. -/
def makePath (path : String) : IO (Except PathFault Unit) := do
  match ← (IO.FS.createDirAll path).toBaseIO with
  | .error _ => return .error ⟨"mkdir", path, .notDirectory⟩
  | .ok () => return .ok ()

/-- Whether there is a file or directory. -/
def isPresent (path : String) : IO Bool := do
  match ← (IO.FS.Handle.mk path .read).toBaseIO with
  | .ok _ => return true
  | .error _ => return false

/-- A directory and those above it. -/
def ancestors (dir : String) : IO (List String) := do
  let here ← IO.currentDir
  let parts := Path.cleanParts (if Path.isAbsolute dir then dir else here.toString ++ "/" ++ dir)
  return ((List.range (parts.length + 1)).map fun n => Path.ofParts true (parts.take n)).reverse

/-- The store in a directory. -/
def openDirectory (dir : String) : IO (Except String Store) := do
  match ← makePath dir with
  | .error fault => return .error fault.message
  | .ok () =>
    match ← readPath (Path.join dir Store.fileName) with
    | .error _ => return .ok .empty
    | .ok text =>
      match Store.parse? text with
      | some s => return .ok s
      | none => return .error "unreadable store"

/-- The present time, which is that of a new file. -/
def presentTime : IO Timestamp := do
  let (_, path) ← IO.FS.createTempFile
  let modified := (← path.metadata).modified
  IO.FS.removeFile path
  return .ofSeconds modified.sec.toNat modified.nsec.toNat

/-- The file system as the surroundings of a run. -/
def host : Host IO where
  read := readPath
  write := writePath
  makeDirectories := makePath
  isPresent := isPresent
  ancestors := ancestors
  openStore := openDirectory
  saveStore dir s := do
    discard (writePath (Path.join dir Store.fileName) s.render)
  now := presentTime
  clock := return (← IO.monoNanosNow : Nat)

/-- The order of log levels. -/
def severity : LogLevel → Nat
  | .debug => 0
  | .info => 1
  | .warn => 2
  | .error => 3

/-- The least severity that is shown at a level. -/
def threshold (level : String) : Nat :=
  match Text.LowerCase.ofText level with
  | "debug" => 0
  | "warn" | "warning" => 2
  | "error" => 3
  | "dpanic" | "panic" | "fatal" => 4
  | _ => 1

/-- Prints a log entry. -/
def printEntry (level : String) (e : LogEntry) : IO Unit := do
  if threshold level ≤ severity e.level then
    let fields := e.fields.map fun (name, value) => name ++ "=" ++ value.render
    IO.eprintln ("\t".intercalate ([e.level.label, e.message] ++ fields))

/-- Prints the answer of a run. -/
def printOutcome (level : String) (o : Outcome) : IO Unit := do
  if o.verbose then
    for e in o.events do
      IO.eprintln (e.format false)
  for e in o.logs do
    printEntry level e
  IO.print o.output
  IO.eprint o.advice

/-- Ends a run with its complaint, if it has one, and its exit code. -/
def finish (o : Outcome) : IO UInt32 := do
  match o.complaint? "invalid document" with
  | some text => IO.eprintln text
  | none => pure ()
  return UInt32.ofNat o.exitCode

/-- Compiles a file again whenever its text has changed. -/
partial def watchLoop (config : Config) (cache : Cache Plan) (o : Options) (file : String)
    (last : Option String) : IO Unit := do
  let text := (← readPath file).toOption
  if text == last then
    IO.sleep 200
    watchLoop config cache o file last
  else
    let (cache, outcome) ← recompile host config cache o file
    printOutcome o.logLevel { outcome with verbose := config.verbose }
    watchLoop config cache o file text

/-- Watches a file. -/
def watch (o : Options) (file : String) : IO UInt32 := do
  match ← prepare host true o with
  | .error fault => finish (.failed fault)
  | .ok config =>
    printEntry o.logLevel ⟨.info, "watching", [("file", .text file)]⟩
    let (cache, outcome) ← recompile host config (newCache config) o file
    printOutcome o.logLevel { outcome with verbose := config.verbose }
    watchLoop config cache o file (← readPath file).toOption
    return 0

end RulePlan.Main

open RulePlan in
/-- Runs the command line. -/
def main (line : List String) : IO UInt32 := do
  match Command.Invocation.ofLine line with
  | .ok ⟨.watch, o, [file], false⟩ => Main.watch o file
  | .error fault => Main.finish (.failed (.usage fault))
  | .ok i =>
    let outcome ← Command.run Main.host true line
    Main.printOutcome i.options.logLevel outcome
    Main.finish outcome
