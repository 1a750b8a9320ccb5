import RulePlan.Table
import RulePlan.Text.Bytes
import RulePlan.Yaml.Decode
import RulePlan.Yaml.Writer

/-!
# RulePlan.Artifact — rendered plans to be kept

An artifact is a plan in rendered form, with the key of its request, its source file and the time it
was made. It is kept as structured text, with its data as a list of bytes.
-/

namespace RulePlan

open Yaml Yaml.Node

/-- The rendering that an artifact holds. Codes above one have no rendering. -/
structure ArtifactKind where
  code : UInt8
deriving DecidableEq, Repr

namespace ArtifactKind

/-- The exported document. -/
def yaml : ArtifactKind := ⟨0⟩

/-- The report in tables. -/
def table : ArtifactKind := ⟨1⟩

/-- The name of a kind. -/
def label (k : ArtifactKind) : String :=
  if k = yaml then "yaml"
  else if k = table then "table"
  else "kind(" ++ Text.Decimal.ofNat k.code.toNat ++ ")"

/-- The kind with a name; no name means the exported document. -/
def ofName? (name : String) : Option ArtifactKind :=
  if name = "yaml" ∨ name = "" then some yaml
  else if name = "table" then some table
  else none

/-- The wording for a name without a kind. -/
def unknownMessage (name : String) : String :=
  "unknown artifact format " ++ Text.Quoted.encode name ++ " (expected yaml or table)"

end ArtifactKind

/-- A rendered plan. The data is a text, so its bytes are valid UTF-8. -/
structure Artifact where
  key : String
  file : String
  kind : ArtifactKind
  created : Timestamp
  data : String
deriving DecidableEq, Repr

namespace Artifact

/-! ## The kept form -/

/-- The bytes of a text as a list. -/
def bytesForm (s : String) : Form := .list false (s.toUTF8.toList.map fun b => .ofInt b.toNat)

/-- An artifact as a form. -/
def toForm (a : Artifact) : Form :=
  .map [("key", .text a.key), ("file", .text a.file), ("kind", .ofInt a.kind.code.toNat),
    ("created", .verbatim a.created.render), ("data", bytesForm a.data)]

/-- An artifact as text, indented by four. -/
def encode (a : Artifact) : String := a.toForm.render 4

/-- The fields of an artifact. -/
def fields : Node.Fields Artifact
  | "key" => some (taking intoText fun a v => { a with key := v })
  | "file" => some (taking intoText fun a v => { a with file := v })
  | "kind" => some (taking intoByte fun a v => { a with kind := ⟨v⟩ })
  | "created" => some (taking intoTime fun a v => { a with created := v })
  | "data" => some (taking (intoList intoByte) fun a v => { a with data := Text.ofBytes v })
  | _ => none

/-- Why a kept form cannot be read: it is no tree, or its time is none. -/
inductive DecodeFault where
  | text (fault : Fault)
  | time (written : String)
deriving DecidableEq, Repr

/-- The wording of each cause. A time that was written is unreadable only by its offset. -/
def DecodeFault.message : DecodeFault → String
  | .text fault => fault.message
  | .time written =>
    "parsing time " ++ Text.Quoted.encode written ++ ": time zone offset hour out of range"

/-- The text of the time in a kept form. -/
def writtenTime : Node → String
  | .map entries =>
    (entries.findSome? fun
      | (.plain "created", .plain text) => some text
      | _ => none).getD ""
  | _ => ""

/-- Reads an artifact in its kept form. -/
def decode (s : String) : Except DecodeFault Artifact :=
  match Node.parse s with
  | .error fault => .error (.text fault)
  | .ok n =>
    match n.decode? fields ⟨"", "", .yaml, .zero, ""⟩ with
    | some a => .ok a
    | none => .error (.time (writtenTime n))

/-! ## Listing -/

/-- The columns of a list of artifacts. -/
def columns : List Column :=
  [{ title := "Key" }, { title := "File" }, { title := "Created" },
    { title := "Bytes", alignment := .right }]

/-- The cells of an artifact. -/
def row (a : Artifact) : List String :=
  [a.key, a.file, a.created.renderShort, Text.Decimal.ofNat (Text.byteLength a.data)]

/-- Artifacts as a table. -/
def listing (artifacts : List Artifact) : String := (Table.mk columns (artifacts.map row)).render

end Artifact

end RulePlan
