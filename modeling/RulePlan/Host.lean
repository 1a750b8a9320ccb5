import RulePlan.Config
import RulePlan.Path
import RulePlan.Store

/-!
# RulePlan.Host — what a run needs from its surroundings

A run reads and writes files, keeps artifacts and asks for the time. These operations are given to
it as a record, so that the same program runs on a file system and on a tree of files in memory. The
configuration is found, loaded and saved through them.
-/

namespace RulePlan

/-- The operations of the surroundings. `ancestors` lists a directory and those above it, the
nearest first. `now` is the date and time of day; `clock` counts nanoseconds from some start and
never goes back. -/
structure Host (m : Type → Type) where
  read : String → m (Except PathFault String)
  write : String → String → m (Except PathFault Unit)
  makeDirectories : String → m (Except PathFault Unit)
  isPresent : String → m Bool
  ancestors : String → m (List String)
  openStore : String → m (Except String Store)
  saveStore : String → Store → m Unit
  now : m Timestamp
  clock : m Int

/-- Why a configuration cannot be loaded. -/
inductive LoadFault where
  | unreadable (fault : PathFault)
  | malformed
  | invalid (fault : ConfigFault)
deriving DecidableEq, Repr

/-- The wording of each cause; `detail` describes malformed text. -/
def LoadFault.message (detail : String) : LoadFault → String
  | .unreadable fault => "failed to read config file: " ++ fault.message
  | .malformed => "failed to parse config file: " ++ detail
  | .invalid fault => fault.message

/-- Why a configuration cannot be saved. -/
inductive SaveFault where
  | directory (fault : PathFault)
  | file (fault : PathFault)
deriving DecidableEq, Repr

/-- The wording of each cause. -/
def SaveFault.message : SaveFault → String
  | .directory fault => "failed to create config directory: " ++ fault.message
  | .file fault => "failed to write config file: " ++ fault.message

namespace Config

/-- A configuration from the outcome of reading its file. -/
def ofFile (text : Except PathFault String) : Except LoadFault Config :=
  match text with
  | .error fault => .error (.unreadable fault)
  | .ok s =>
    match parse? s with
    | none => .error .malformed
    | some c => .ok c

/-- A configuration after its check. -/
def checked (c : Config) : Except LoadFault Config :=
  match c.fault? with
  | some fault => .error (.invalid fault)
  | none => .ok c

/-- The standard settings with those of a file, if there is one, laid over them. -/
def ofLoaded (file : Option (Except PathFault String)) : Except LoadFault Config :=
  match file with
  | none => standard.checked
  | some text =>
    match ofFile text with
    | .error fault => .error fault
    | .ok c => (standard.merge c).checked

variable {m : Type → Type} [Monad m]

/-- The first of some directories that has a configuration file. -/
def findAmong (host : Host m) : List String → m (Option String)
  | [] => pure none
  | dir :: rest => do
    let candidate := Path.join dir projectFile
    if ← host.isPresent candidate then pure (some candidate) else findAmong host rest

/-- The configuration file of the project that a directory belongs to. -/
def findProject (host : Host m) (dir : String) : m (Option String) := do
  findAmong host (← host.ancestors dir)

/-- Reads a configuration file. -/
def loadFile (host : Host m) (path : String) : m (Except LoadFault Config) := do
  return ofFile (← host.read path)

/-- The settings of a run: from the given file, or from that of the project if none is given. -/
def load (host : Host m) (path : String) : m (Except LoadFault Config) := do
  let path? ← if path = "" then findProject host "." else pure (some path)
  match path? with
  | none => return ofLoaded none
  | some path => return ofLoaded (some (← host.read path))

/-- Writes a configuration file, with the directories above it. -/
def save (host : Host m) (c : Config) (path : String) : m (Except SaveFault Unit) := do
  match ← host.makeDirectories (Path.parent path) with
  | .error fault => return .error (.directory fault)
  | .ok () =>
    match ← host.write path c.render with
    | .error fault => return .error (.file fault)
    | .ok () => return .ok ()

end Config

end RulePlan
