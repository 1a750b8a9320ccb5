import RulePlan.Text.Decimal

/-!
# RulePlan.Path — file paths as text

Paths can be cleaned by their text alone: empty and single-dot parts go away, and two dots take away
the part before them. File operations fail for a few causes, reported with the operation and the
path as it was given.
-/

namespace RulePlan

namespace Path

/-- Whether a path starts at the root. -/
def isAbsolute (path : String) : Bool := path.toList.head? == some '/'

/-- The parts of a path. -/
def parts (path : String) : List String := path.splitOn "/"

/-- Takes in the next part; the parts so far are in reverse order. -/
def step (absolute : Bool) (done : List String) (part : String) : List String :=
  if part = "" ∨ part = "." then done
  else if part = ".." then
    match done with
    | [] => if absolute then [] else [".."]
    | last :: earlier => if last = ".." then ".." :: done else earlier
  else part :: done

/-- The parts of a path without dots. -/
def cleanParts (path : String) : List String :=
  ((parts path).foldl (step (isAbsolute path)) []).reverse

/-- A path from its parts. -/
def ofParts (absolute : Bool) (parts : List String) : String :=
  if absolute then "/" ++ "/".intercalate parts
  else if parts.isEmpty then "." else "/".intercalate parts

/-- The shortest form of a path. -/
def clean (path : String) : String := ofParts (isAbsolute path) (cleanParts path)

/-- The path of a name below a directory. -/
def join (dir name : String) : String := if dir = "" then clean name else clean (dir ++ "/" ++ name)

/-- What a path has in front of its last name, with the slash between them. -/
def before (path : String) : String :=
  let named := path.toList.reverse.dropWhile (· == '/')
  String.ofList (named.dropWhile (· != '/')).reverse

/-- A path without the slashes at its end. -/
def withoutSlashes (path : String) : String :=
  String.ofList (path.toList.reverse.dropWhile (· == '/')).reverse

/-- The way from one directory to a place, both given by their parts from the root. -/
def relative : (dir place : List String) → List String
  | d :: dir, p :: place =>
    if d = p then relative dir place else (d :: dir).map (fun _ => "..") ++ p :: place
  | dir, place => dir.map (fun _ => "..") ++ place

/-- The directory of a path. -/
def parent (path : String) : String :=
  let above := (parts path).dropLast
  if above.isEmpty then "."
  else clean ("/".intercalate above ++ (if above == [""] then "/" else ""))

end Path

/-- Why a file operation fails. -/
inductive PathCause where
  | missing
  | present
  | isDirectory
  | notDirectory
  | nameTooLong
  | invalid
  | other (text : String)
deriving DecidableEq, Repr

/-- The wording of a cause. -/
def PathCause.message : PathCause → String
  | .missing => "no such file or directory"
  | .present => "file exists"
  | .isDirectory => "is a directory"
  | .notDirectory => "not a directory"
  | .nameTooLong => "file name too long"
  | .invalid => "invalid argument"
  | .other text => text

/-- A failed file operation. -/
structure PathFault where
  operation : String
  path : String
  cause : PathCause
deriving DecidableEq, Repr

/-- `open X: no such file or directory`. -/
def PathFault.message (f : PathFault) : String :=
  f.operation ++ " " ++ f.path ++ ": " ++ f.cause.message

end RulePlan
