import RulePlan.Duration
import RulePlan.Yaml.Node.Compose
import RulePlan.Yaml.Scalar

/-!
# RulePlan.Yaml.Decode — trees as typed values

Each function reads a node into a value of one type; null reads as no value. A node of another type
is an error, except that any scalar reads as text, a decimal reads as an integer without its
fraction, and the older words for truth values are known. In a mapping, entries with unknown names
are ignored, a name that occurs twice is an error, and the entries of a merged mapping count where
the mapping itself has none of their name.

A tree may grow through its references. How often nodes are read is counted, and reading stops where
nearly all of it is due to references.
-/

namespace RulePlan.Yaml

/-- How many nodes have been read, how many of them through references, and how many references are
being followed. -/
structure Tally where
  visits : Nat := 0
  repeated : Nat := 0
  following : Nat := 0

namespace Tally

/-- Counts a node. -/
def visit (t : Tally) : Tally :=
  { t with
    visits := t.visits + 1
    repeated := if t.following = 0 then t.repeated else t.repeated + 1 }

/-- Up to this many nodes, 99 of 100 may be due to references. -/
def smallSize : Nat := 400000

/-- From this many nodes on, 10 of 100 may be due to references. -/
def largeSize : Nat := 4000000

/-- Whether too many nodes are due to references; between the two sizes the share goes down
evenly. -/
def isExcessive (t : Tally) : Bool :=
  decide (100 < t.repeated) && decide (1000 < t.visits)
    && if t.visits ≤ smallSize then decide (99 * t.visits < 100 * t.repeated)
      else if largeSize ≤ t.visits then decide (10 * t.visits < 100 * t.repeated)
      else
        let range := largeSize - smallSize
        decide ((99 * range - 89 * (t.visits - smallSize)) * t.visits < 100 * range * t.repeated)

end Tally

/-- A reading of nodes, which may fail. -/
abbrev Reads := StateT Tally Option

namespace Node

/-- A reading that fails. -/
def refuse : Reads α := fun _ => none

/-- Counts a node. -/
def visit : Reads Unit := fun t => if t.visit.isExcessive then none else some ((), t.visit)

/-- Reads a node, or the one that a reference stands for. -/
def follow (read : Node → Reads α) (n : Node) : Reads α :=
  match n with
  | .reference _ target => do
    visit
    modify fun t => { t with following := t.following + 1 }
    visit
    let v ← read target
    modify fun t => { t with following := t.following - 1 }
    return v
  | .cycle _ => refuse
  | _ => do
    visit
    read n

/-! ## Scalars -/

/-- What a scalar stands for, with its text. -/
def scalar? : Node → Option (Scalar × String)
  | .plain s => some (Scalar.ofPlain s, s)
  | .quoted s => some (.text, s)
  | .tagged type s => Scalar.ofTagged? type s
  | _ => none

/-- Reads a scalar; null is no value. -/
def intoScalar (read : Scalar → String → Option α) : Node → Reads (Option α) :=
  follow fun n =>
    match n.scalar? with
    | some (.null, _) => pure none
    | some (v, s) =>
      match read v s with
      | some a => pure (some a)
      | none => refuse
    | none => refuse

/-- Any scalar as text. -/
def intoText : Node → Reads (Option String) := intoScalar fun _ s => some s

/-- A number as an integer of 64 bits. -/
def intoInt : Node → Reads (Option Int) :=
  intoScalar fun v _ =>
    match v with
    | .int n => if Scalar.fits n then some n else none
    | .decimal negative digits exponent => Scalar.truncate? negative digits exponent
    | .infinite true => some (-9223372036854775808)
    | _ => none

/-- A number as a byte. -/
def intoByte : Node → Reads (Option UInt8) :=
  intoScalar fun v _ =>
    match v with
    | .int n => if 0 ≤ n ∧ n < 256 then some (UInt8.ofNat n.toNat) else none
    | _ => none

/-- The older words for truth values. -/
def truthWord? (s : String) : Option Bool :=
  if s ∈ ["y", "Y", "yes", "Yes", "YES", "on", "On", "ON"] then some true
  else if s ∈ ["n", "N", "no", "No", "NO", "off", "Off", "OFF"] then some false
  else none

/-- A truth value. -/
def intoBool : Node → Reads (Option Bool) :=
  intoScalar fun v s =>
    match v with
    | .bool b => some b
    | .text => truthWord? s
    | _ => none

/-- A duration in nanoseconds; it is text, never a number. -/
def intoDuration : Node → Reads (Option Int) :=
  intoScalar fun v s =>
    match v with
    | .text => Duration.read? s
    | _ => none

/-- A timestamp. -/
def intoTime : Node → Reads (Option Timestamp) :=
  intoScalar fun v _ =>
    match v with
    | .time t => some t
    | _ => none

/-! ## Lists -/

/-- The items of a list that have a value. -/
def readItems (item : Node → Reads (Option α)) : List Node → Reads (List α)
  | [] => pure []
  | n :: ns => do
    let first ← item n
    let more ← readItems item ns
    return first.toList ++ more

/-- A list; null is the empty list, and null items are left out. -/
def intoList (item : Node → Reads (Option α)) : Node → Reads (Option (List α)) :=
  follow fun n =>
    match n with
    | .list items => some <$> readItems item items
    | _ =>
      match n.scalar? with
      | some (.null, _) => pure (some [])
      | _ => refuse

/-- A list of texts. -/
def intoTexts : Node → Reads (Option (List String)) := intoList intoText

/-- A list of integers. -/
def intoInts : Node → Reads (Option (List Int)) := intoList intoInt

/-! ## Mappings -/

/-- What tells two keys apart: their shape, and the text of a scalar or the name of a reference. -/
def keyIdentity : Node → Nat × String
  | .plain s => (0, s)
  | .quoted s => (0, s)
  | .tagged _ s => (0, s)
  | .reference name _ => (1, name)
  | .cycle name => (1, name)
  | .list _ => (2, "")
  | .map _ => (3, "")

/-- Whether no key of a mapping is written twice. -/
def distinctKeys (entries : List (Node × Node)) : Bool :=
  (entries.map fun e => keyIdentity e.1).Nodup

/-- The key that merges another mapping into the one it stands in. -/
def isMerge : Node → Bool
  | .plain s => s == "<<"
  | .tagged tag s => tag == "!!merge" && s == "<<"
  | _ => false

/-- How the values of the known names of a mapping are taken in. -/
abbrev Fields (α : Type) := String → Option (Node → α → Reads α)

/-- Takes in a value if it is there. -/
def taking (read : Node → Reads (Option β)) (put : α → β → α) (n : Node) (a : α) : Reads α := do
  match ← read n with
  | some b => return put a b
  | none => return a

/-- The state of reading a mapping: the value so far, the names that are taken and, in `own`, those
known names that the mapping itself has had. -/
structure Intake (α : Type) where
  value : α
  taken : Option (List String)
  own : List String := []

/-- Takes in one entry of a mapping. -/
def intoEntry (fields : Fields α) (s : Intake α) (entry : Node × Node) : Reads (Intake α) := do
  if isMerge entry.1 then return s
  match ← intoText entry.1 with
  | none => return s
  | some name =>
    if (s.taken.getD []).contains name then return s
    let s := { s with taken := s.taken.map (name :: ·) }
    match fields name with
    | none => return s
    | some field =>
      if s.own.contains name then refuse
      else
        let value ← field entry.2 s.value
        return { s with value, own := name :: s.own }

/-- The names of a mapping. -/
def readNames (entries : List (Node × Node)) : Reads (List String) := do
  let names ← readItems intoText (entries.map Prod.fst)
  return names

mutual

/-- Takes in the entries of a mapping, then those it merges. `taken` are the names that are set
already, if the mapping is itself merged into another. -/
def takeEntries (fields : Fields α) (entries : List (Node × Node)) (value : α)
    (taken : Option (List String)) : Reads (Intake α) := do
  if !distinctKeys entries then refuse
  let s ← entries.foldlM (intoEntry fields) { value, taken }
  match merging fields entries with
  | none => return s
  | some merge =>
    let names ← match s.taken with
      | some names => pure names
      | none => readNames entries
    let (value, names) ← merge s.value names
    return { s with value, taken := taken.map fun _ => names }

/-- How the last merge of a mapping is taken in. -/
def merging (fields : Fields α) : List (Node × Node) →
    Option (α → List String → Reads (α × List String))
  | [] => none
  | (key, target) :: entries =>
    match merging fields entries with
    | some merge => some merge
    | none => if isMerge key then some (takeMerge fields target) else none

/-- Takes in what is merged: a mapping or a list of mappings. -/
def takeMerge (fields : Fields α) : Node → α → List String → Reads (α × List String)
  | .list items, value, names => takeMerges fields items value names
  | n, value, names => takeMap fields n value names

/-- Takes in mappings one after the other. -/
def takeMerges (fields : Fields α) : List Node → α → List String → Reads (α × List String)
  | [], value, names => pure (value, names)
  | n :: ns, value, names => do
    let (value, names) ← takeMap fields n value names
    takeMerges fields ns value names

/-- Takes in one merged mapping, or one that is referred to. -/
def takeMap (fields : Fields α) : Node → α → List String → Reads (α × List String)
  | .map entries, value, names => do
    visit
    let s ← takeEntries fields entries value (some names)
    return (s.value, s.taken.getD names)
  | .reference _ (.map entries), value, names => do
    visit
    modify fun t => { t with following := t.following + 1 }
    visit
    let s ← takeEntries fields entries value (some names)
    modify fun t => { t with following := t.following - 1 }
    return (s.value, s.taken.getD names)
  | _, _, _ => refuse

end

/-- A mapping with known names, read over a present value. -/
def intoRecord (fields : Fields α) (current : α) : Node → Reads (Option α) :=
  follow fun n =>
    match n with
    | .map entries => do
      let s ← takeEntries fields entries current none
      return some s.value
    | _ =>
      match n.scalar? with
      | some (.null, _) => pure none
      | _ => refuse

/-- Reads a mapping that is a whole document. -/
def decode? (fields : Fields α) (current : α) (n : Node) : Option α :=
  ((intoRecord fields current n).run { visits := 1 }).map fun (v, _) => v.getD current

end Node

end RulePlan.Yaml
