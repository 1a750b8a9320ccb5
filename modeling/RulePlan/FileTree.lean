import RulePlan.Host

/-!
# RulePlan.FileTree — surroundings held in memory

A tree of files with a working directory, stores of artifacts at some of its directories, and a
fixed time and clock. Places are given by their parts from the root. A directory exists if it was
made, if something lies below it, or if it is the working directory or above it.

A path is followed part by part, and each part but the last must lead to a directory: a file on the
way is an obstacle even where two dots come after it, and so is a name that is missing. Names and
paths have a greatest length.
-/

namespace RulePlan

/-- Files and directories by their parts from the root, stores by their directories. -/
structure FileTree where
  files : List (List String × String) := []
  directories : List (List String) := []
  stores : List (List String × Store) := []
  workingDirectory : List String := []
  time : Timestamp
  clock : Int := 0
deriving Repr

/-- What stands at a place. -/
inductive FileEntry where
  | file (text : String)
  | directory
deriving DecidableEq, Repr

namespace FileTree

/-- The greatest number of bytes of a name. -/
def longestName : Nat := 255

/-- The greatest number of bytes of a path. -/
def longestPath : Nat := 4095

/-! ## Places -/

/-- The text of a file. -/
def file? (t : FileTree) (place : List String) : Option String := t.files.lookup place

/-- Whether there is a directory. -/
def isDirectory (t : FileTree) (place : List String) : Bool :=
  place.isPrefixOf t.workingDirectory
    || t.directories.any place.isPrefixOf
    || t.files.any fun (f, _) => place.isPrefixOf f && place.length < f.length

/-- What stands at a place. -/
def entry? (t : FileTree) (place : List String) : Option FileEntry :=
  match t.file? place with
  | some text => some (.file text)
  | none => if t.isDirectory place then some .directory else none

/-- Follows the parts of a path from a place. The last of them may be missing. -/
def follow (t : FileTree) : (place : List String) → List String → Except PathCause (List String)
  | place, [] => .ok place
  | place, part :: rest =>
    match t.entry? place with
    | none => .error .missing
    | some (.file _) => .error .notDirectory
    | some .directory =>
      if part = "" ∨ part = "." then t.follow place rest
      else if part = ".." then t.follow place.dropLast rest
      else if longestName < Text.byteLength part then .error .nameTooLong
      else t.follow (place ++ [part]) rest

/-- The place that a path leads to. -/
def locate (t : FileTree) (path : String) : Except PathCause (List String) :=
  if path.toList.contains '\x00' then .error .invalid
  else if path = "" then .error .missing
  else if longestPath < Text.byteLength path then .error .nameTooLong
  else t.follow (if Path.isAbsolute path then [] else t.workingDirectory) (Path.parts path)

/-- What a path leads to. -/
def find (t : FileTree) (path : String) : Except PathCause FileEntry :=
  match t.locate path with
  | .error cause => .error cause
  | .ok place =>
    match t.entry? place with
    | some e => .ok e
    | none => .error .missing

/-- The parts of a path from the root, by its text alone. -/
def textPlace (t : FileTree) (path : String) : List String :=
  Path.cleanParts (if Path.isAbsolute path then path
    else Path.ofParts true (t.workingDirectory ++ [path]))

/-! ## Files -/

/-- Reads a file. A directory can be opened, but not read. -/
def read (t : FileTree) (path : String) : Except PathFault String :=
  match t.find path with
  | .error cause => .error ⟨"open", path, cause⟩
  | .ok .directory => .error ⟨"read", path, .isDirectory⟩
  | .ok (.file text) => .ok text

/-- Puts a text at a place. -/
def put (t : FileTree) (place : List String) (text : String) : FileTree :=
  { t with files := (place, text) :: t.files.filter (·.1 != place) }

/-- Writes a file into an existing directory. -/
def write (t : FileTree) (path text : String) : FileTree × Except PathFault Unit :=
  match t.locate path with
  | .error cause => (t, .error ⟨"open", path, cause⟩)
  | .ok place =>
    match t.entry? place with
    | some .directory => (t, .error ⟨"open", path, .isDirectory⟩)
    | _ => (t.put place text, .ok ())

/-- Whether there is a file or directory. -/
def isPresent (t : FileTree) (path : String) : Bool := (t.find path).toOption.isSome

/-! ## Directories -/

/-- Makes a directory in an existing one. -/
def makeDirectory (t : FileTree) (path : String) : FileTree × Except PathCause Unit :=
  match t.locate (Path.withoutSlashes path) with
  | .error cause => (t, .error cause)
  | .ok place =>
    match t.entry? place with
    | some _ => (t, .error .present)
    | none => ({ t with directories := place :: t.directories }, .ok ())

/-- Makes a directory and those above it. What stands before the last name of a path is shorter than
the path, so the fuel, the length of the path, suffices. -/
def makeAbove (t : FileTree) : (fuel : Nat) → (path : String) → FileTree × Except PathFault Unit
  | 0, _ => (t, .ok ())
  | fuel + 1, path =>
    match t.find path with
    | .ok .directory => (t, .ok ())
    | .ok (.file _) => (t, .error ⟨"mkdir", path, .notDirectory⟩)
    | .error _ =>
      let above := Path.before path
      match if above = "" then (t, .ok ()) else makeAbove t fuel above with
      | (t, .error fault) => (t, .error fault)
      | (t, .ok ()) =>
        match t.makeDirectory path with
        | (t, .ok ()) => (t, .ok ())
        | (t, .error cause) =>
          match t.find path with
          | .ok .directory => (t, .ok ())
          | _ => (t, .error ⟨"mkdir", path, cause⟩)

/-- Makes a directory and those above it. -/
def makeDirectories (t : FileTree) (path : String) : FileTree × Except PathFault Unit :=
  t.makeAbove (path.length + 1) path

/-- A directory and those above it up to the root, as paths from the working directory. -/
def ancestors (t : FileTree) (path : String) : List String :=
  let place := t.textPlace path
  (List.range (place.length + 1)).reverse.map fun n =>
    Path.ofParts false (Path.relative t.workingDirectory (place.take n))

/-! ## Stores -/

/-- The store at a directory, which is made if it is missing. -/
def openStore (t : FileTree) (path : String) : FileTree × Except String Store :=
  match t.find path with
  | .error .missing | .ok .directory =>
    match t.makeDirectories path with
    | (t, .error fault) => (t, .error fault.message)
    | (t, .ok ()) =>
      match t.locate path with
      | .error cause => (t, .error cause.message)
      | .ok place => (t, .ok ((t.stores.lookup place).getD .empty))
  | .error cause => (t, .error cause.message)
  | .ok (.file _) => (t, .error PathCause.notDirectory.message)

/-- Keeps a store at a directory. -/
def saveStore (t : FileTree) (path : String) (s : Store) : FileTree :=
  match t.locate path with
  | .error _ => t
  | .ok place => { t with stores := (place, s) :: t.stores.filter (·.1 != place) }

/-- The tree as the surroundings of a run. -/
def host : Host (StateM FileTree) where
  read path := fun t => (t.read path, t)
  write path text := fun t => (t.write path text).swap
  makeDirectories path := fun t => (t.makeDirectories path).swap
  isPresent path := fun t => (t.isPresent path, t)
  ancestors path := fun t => (t.ancestors path, t)
  openStore path := fun t => (t.openStore path).swap
  saveStore path s := fun t => ((), t.saveStore path s)
  now := fun t => (t.time, t)
  clock := fun t => (t.clock, t)

end FileTree

end RulePlan
