import RulePlan.Artifact
import RulePlan.Text.HexDump

/-!
# RulePlan.Store — artifacts by kind and key

The store is an ordered map: each artifact stands in its kept form under a path made of its kind and
key, and paths are in byte order. It may limit the size of what it keeps.
-/

namespace RulePlan

/-- Kept artifacts by path, in byte order of the paths. -/
structure Store where
  entries : List (String × String)
  limit : Option Nat := none
deriving DecidableEq, Repr

/-- Causes for which an artifact is not kept or found. -/
inductive StoreFault where
  | emptyKey
  | notFound
  | pathTooLong (key path : String)
  | undeletable (key path : String)
  | tooLarge (key value : String) (limit : Nat)
  | unreadable (key : String) (fault : Artifact.DecodeFault)
  | undecodable (path : String) (fault : Artifact.DecodeFault)
deriving DecidableEq, Repr

namespace StoreFault

/-- The wording for something too large, with its first kilobyte. -/
def oversize (noun s : String) (limit : Nat) : String :=
  noun ++ " with size " ++ Text.Decimal.ofNat (Text.byteLength s) ++ " exceeded "
    ++ Text.Decimal.ofNat limit ++ " limit. " ++ noun ++ ":\n"
    ++ Text.HexDump.render (s.toUTF8.toList.take 1024)

/-- The longest path. -/
def longestPath : Nat := 65000

/-- The wording of each cause. -/
def message : StoreFault → String
  | .emptyKey => "artifact key is empty"
  | .notFound => "artifact not found"
  | .pathTooLong key path =>
    "failed to write artifact " ++ key ++ ": " ++ oversize "Key" path longestPath
  | .undeletable key path =>
    "failed to delete artifact " ++ key ++ ": " ++ oversize "Key" path longestPath
  | .tooLarge key value limit =>
    "failed to write artifact " ++ key ++ ": " ++ oversize "Value" value limit
  | .unreadable key fault => "failed to read artifact " ++ key ++ ": " ++ fault.message
  | .undecodable path fault => "failed to decode artifact " ++ path ++ ": " ++ fault.message

end StoreFault

namespace Store

/-- A store without artifacts. -/
def empty : Store := { entries := [] }

/-- A store that keeps values of at most a kilobyte. -/
def small : Store := { entries := [], limit := some 1024 }

/-- What the paths of a kind start with. -/
def pathOfKind (kind : ArtifactKind) : String := "artifact/" ++ kind.label ++ "/"

/-- The path of an artifact. -/
def path (kind : ArtifactKind) (key : String) : String := pathOfKind kind ++ key

/-- Puts a value at a path, at its place in the order. -/
def insert (path value : String) : List (String × String) → List (String × String)
  | [] => [(path, value)]
  | (p, v) :: rest =>
    if path < p then (path, value) :: (p, v) :: rest
    else if path = p then (path, value) :: rest
    else (p, v) :: insert path value rest

/-- Keeps an artifact in place of an earlier one of the same kind and key. An artifact without a
time gets the present one. -/
def put (s : Store) (now : Timestamp) (a : Artifact) : Except StoreFault Store :=
  if a.key = "" then .error .emptyKey
  else
    let a := if a.created.isZero then { a with created := now } else a
    let place := path a.kind a.key
    let value := a.encode
    if StoreFault.longestPath < Text.byteLength place then .error (.pathTooLong a.key place)
    else
      match s.limit with
      | some most =>
        if most < Text.byteLength value then .error (.tooLarge a.key value most)
        else .ok { s with entries := insert place value s.entries }
      | none => .ok { s with entries := insert place value s.entries }

/-- The artifact of a kind and key. -/
def get (s : Store) (kind : ArtifactKind) (key : String) : Except StoreFault Artifact :=
  match s.entries.lookup (path kind key) with
  | none => .error .notFound
  | some value =>
    match Artifact.decode value with
    | .ok a => .ok a
    | .error fault => .error (.unreadable key fault)

/-- Drops an artifact, if there is one. A path that is too long to be kept is refused. -/
def delete (s : Store) (kind : ArtifactKind) (key : String) : Except StoreFault Store :=
  let place := path kind key
  if StoreFault.longestPath < Text.byteLength place then .error (.undeletable key place)
  else .ok { s with entries := s.entries.filter (·.1 != place) }

/-- All artifacts of a kind, in byte order of their keys. -/
def list (s : Store) (kind : ArtifactKind) : Except StoreFault (List Artifact) :=
  (s.entries.filter fun (p, _) => (pathOfKind kind).toList.isPrefixOf p.toList).mapM fun (p, v) =>
    match Artifact.decode v with
    | .ok a => .ok a
    | .error fault => .error (.undecodable p fault)

end Store

end RulePlan
