import RulePlan.Document.Export
import RulePlan.Document.Import
import RulePlan.Proofs.RecordReading
import RulePlan.Proofs.WrittenText

/-!
# RulePlan.Proofs.DocumentText — documents survive their text

A document is portable if its texts consist of printing ASCII characters, its numbers are lengths
and its reasons are words. The text of a portable document is read back as the document: each record
is followed along the list of its fields, and a field that is left out is one that has its default.

Texts with other characters may be written over several lines or with escapes; nothing is said here
about those.
-/

namespace RulePlan

open Yaml Yaml.Form

/-- All texts of a list consist of printing ASCII characters. -/
def Legibles (l : List String) : Prop := ∀ s ∈ l, Text.IsPrintableAscii s

/-- All numbers of a list are lengths. -/
def Sizes (l : List Int) : Prop := ∀ n ∈ l, IsSize n

/-! ## Portable documents -/

structure OrderDoc.Portable (o : OrderDoc) : Prop where
  block1 : Legibles o.block1
  block2 : Legibles o.block2
  block3 : Legibles o.block3

structure PositionDoc.Portable (p : PositionDoc) : Prop where
  var : Text.IsPrintableAscii p.var
  position : IsSize p.position

structure EquationDoc.Portable (e : EquationDoc) : Prop where
  kind : Text.IsPrintableAscii e.kind
  orientation : Text.IsPrintableAscii e.orientation
  rule : IsSize e.rule
  line : IsSize e.line
  head : Text.IsPrintableAscii e.head
  headArgs : Legibles e.headArgs
  driving : Text.IsPrintableAscii e.driving
  positions : ∀ p ∈ e.positions, p.Portable
  selections : Legibles e.selections
  consulting : Text.IsPrintableAscii e.consulting
  commonVars : ∀ p ∈ e.commonVars, p.Portable
  view : Legibles e.view
  combination : Sizes e.combination
  bound : IsSize e.bound
  viewName : Text.IsPrintableAscii e.viewName
  viewAlias : Text.IsPrintableAscii e.viewAlias
  condition : Text.IsPrintableAscii e.condition
  assignment : Text.IsPrintableAscii e.assignment
  negated : Legibles e.negated

structure ViewDoc.Portable (v : ViewDoc) : Prop where
  name : Text.IsPrintableAscii v.name
  viewAlias : Text.IsPrintableAscii v.viewAlias
  predicate : Text.IsPrintableAscii v.predicate
  combination : Sizes v.combination
  bound : IsSize v.bound

structure StratumDoc.Portable (s : StratumDoc) : Prop where
  index : IsSize s.index
  rules : Legibles s.rules
  equations : ∀ e ∈ s.equations, e.Portable
  views : ∀ v ∈ s.views, v.Portable
  order : s.order.Portable

structure SolutionDoc.Portable (s : SolutionDoc) : Prop where
  predicate : Text.IsPrintableAscii s.predicate
  reasons : ∀ r ∈ s.reasons, Plain.IsName r.toList ∧ Style.ofText r = .plain

/-- The texts of a document print, its numbers are lengths and its reasons are words. -/
structure Document.Portable (d : Document) : Prop where
  file : Text.IsPrintableAscii d.file
  key : Text.IsPrintableAscii d.key
  extensional : Legibles d.extensional
  intensional : Legibles d.intensional
  negated : Legibles d.negated
  order : d.order.Portable
  strata : ∀ s ∈ d.strata, s.Portable
  solution : ∀ s ∈ d.solution, s.Portable
  output : Legibles d.output

/-! ## Records of a document -/

theorem carries_legibles {room : Nat} {l : List String} (h : Legibles l) :
    Carries (room + 1) (.ofTexts l) Node.intoTexts l :=
  carries_texts fun s hs => (h s hs).singleLine

section

variable {α : Type} {room : Nat} {fields : Node.Fields α} {names : List String}
  {entries : List (String × Form)} {a b : α} {key : String}

theorem sets_text {put : α → String → α} {s : String}
    (hfield : fields key = some (Node.taking Node.intoText put)) (hs : Text.IsPrintableAscii s)
    (h : Sets room fields names entries (put a s) b) :
    Sets room fields (key :: names) ((key, .text s) :: entries) a b :=
  .field hfield (carries_text hs.singleLine) h

theorem sets_optionalText {put : α → String → α} {s : String}
    (hfield : fields key = some (Node.taking Node.intoText put)) (hput : put a "" = a)
    (hs : Text.IsPrintableAscii s) (h : Sets room fields names entries (put a s) b) :
    Sets room fields (key :: names) (optionalText key s ++ entries) a b :=
  .optional hfield (fun hempty => by rw [hempty, hput]) (carries_text hs.singleLine) h

theorem sets_optionalInt {put : α → Int → α} {n : Int}
    (hfield : fields key = some (Node.taking Node.intoInt put)) (hput : put a 0 = a) (hn : IsSize n)
    (h : Sets room fields names entries (put a n) b) :
    Sets room fields (key :: names) ((if n = 0 then [] else [(key, .ofInt n)]) ++ entries) a b :=
  .optional hfield (fun hzero => by rw [hzero, hput]) (carries_int hn) h

theorem sets_optionalList {β : Type} {read : Node → Reads (Option (List β))} {put : α → List β → α}
    {l : List β} {form : List β → Form} (hfield : fields key = some (Node.taking read put))
    (hput : put a [] = a) (hl : Carries room (form l) read l)
    (h : Sets room fields names entries (put a l) b) :
    Sets room fields (key :: names) (optionalList key l form ++ entries) a b :=
  .optional hfield (fun hempty => by rw [List.isEmpty_iff.1 hempty, hput]) hl h

/-- The last fields may be left out too. -/
theorem sets_last (h : Sets room fields names (entries ++ []) a b) :
    Sets room fields names entries a b := by
  rwa [List.append_nil] at h

end

theorem OrderDoc.Portable.carries {o : OrderDoc} (h : o.Portable) (room : Nat)
    (current : OrderDoc) :
    Carries (room + 2) o.toForm (Node.intoRecord OrderDoc.fields current) o := by
  refine carries_record ["block1", "block2", "block3"] ?_ (by simp) (by decide) (by decide +kernel)
  refine .field rfl (carries_legibles h.block1) ?_
  refine .field rfl (carries_legibles h.block2) ?_
  refine .field rfl (carries_legibles h.block3) ?_
  exact .done _

theorem PositionDoc.Portable.carries {p : PositionDoc} (h : p.Portable) (room : Nat) :
    Carries (room + 1) p.toForm (Node.intoRecord PositionDoc.fields default) p := by
  refine carries_record ["var", "position"] ?_ (by simp) (by decide) (by decide +kernel)
  refine sets_text rfl h.var ?_
  refine .field rfl (carries_int h.position) ?_
  exact .done _

theorem PositionDoc.carries_list {ps : List PositionDoc} (h : ∀ p ∈ ps, p.Portable) (room : Nat) :
    Carries (room + 2) (PositionDoc.toForms ps) PositionDoc.intoList ps :=
  Form.carries_list (by simp [PositionDoc.toForm]) fun p hp => (h p hp).carries room

theorem EquationDoc.Portable.carries {e : EquationDoc} (h : e.Portable) (room : Nat) :
    Carries (room + 3) e.toForm (Node.intoRecord EquationDoc.fields default) e := by
  refine carries_record ["kind", "orientation", "rule", "line", "head", "head_args", "driving",
    "positions", "selections", "consulting", "common_vars", "view", "combination", "bound",
    "view_name", "alias", "condition", "assignment", "negated"] ?_ (by simp) (by decide)
    (by decide +kernel)
  simp only [List.append_assoc, List.cons_append, List.nil_append]
  refine sets_text rfl h.kind ?_
  refine sets_optionalText rfl rfl h.orientation ?_
  refine .field rfl (carries_int h.rule) ?_
  refine .field rfl (carries_int h.line) ?_
  refine sets_text rfl h.head ?_
  refine .field rfl (carries_legibles h.headArgs) ?_
  refine sets_text rfl h.driving ?_
  refine sets_optionalList rfl rfl (PositionDoc.carries_list h.positions room) ?_
  refine sets_optionalList rfl rfl (carries_legibles h.selections) ?_
  refine sets_optionalText rfl rfl h.consulting ?_
  refine sets_optionalList rfl rfl (PositionDoc.carries_list h.commonVars room) ?_
  refine sets_optionalList rfl rfl (carries_legibles h.view) ?_
  refine sets_optionalList rfl rfl (carries_ints h.combination) ?_
  refine sets_optionalInt rfl rfl h.bound ?_
  refine sets_optionalText rfl rfl h.viewName ?_
  refine sets_optionalText rfl rfl h.viewAlias ?_
  refine sets_optionalText rfl rfl h.condition ?_
  refine sets_optionalText rfl rfl h.assignment ?_
  refine sets_last ?_
  refine sets_optionalList rfl rfl (carries_legibles h.negated) ?_
  exact .done _

theorem ViewDoc.Portable.carries {v : ViewDoc} (h : v.Portable) (room : Nat) :
    Carries (room + 1) v.toForm (Node.intoRecord ViewDoc.fields default) v := by
  refine carries_record ["name", "alias", "predicate", "combination", "bound"] ?_ (by simp)
    (by decide) (by decide +kernel)
  refine sets_text rfl h.name ?_
  refine sets_text rfl h.viewAlias ?_
  refine sets_text rfl h.predicate ?_
  refine .field rfl (carries_ints h.combination) ?_
  refine .field rfl (carries_int h.bound) ?_
  exact .done _

theorem StratumDoc.Portable.carries {s : StratumDoc} (h : s.Portable) (room : Nat) :
    Carries (room + 5) s.toForm (Node.intoRecord StratumDoc.fields default) s := by
  refine carries_record ["index", "rules", "equations", "views", "order"] ?_ (by simp) (by decide)
    (by decide +kernel)
  simp only [List.cons_append, List.nil_append]
  refine .field rfl (carries_int h.index) ?_
  refine .field rfl (carries_legibles h.rules) ?_
  refine .field rfl (Form.carries_list (by simp [EquationDoc.toForm])
    fun e he => (h.equations e he).carries room) ?_
  refine sets_optionalList rfl rfl (Form.carries_list (by simp [ViewDoc.toForm])
    fun v hv => (h.views v hv).carries (room + 2)) ?_
  -- the blocks are read over those of the stratum so far
  have horder := h.order.carries (room + 2)
  refine .set rfl (horder default).writable ((horder _).gives.bind (Gives.pure _)) ?_
  exact .done _

theorem SolutionDoc.Portable.carries {s : SolutionDoc} (h : s.Portable) (room : Nat) :
    Carries (room + 1) s.toForm (Node.intoRecord SolutionDoc.fields default) s := by
  refine carries_record ["predicate", "reasons"] ?_ (by simp) (by decide) (by decide +kernel)
  refine sets_text rfl h.predicate ?_
  refine .field rfl (carries_words h.reasons) ?_
  exact .done _

theorem Document.Portable.carries {d : Document} (h : d.Portable) :
    Carries 7 d.toForm (Node.intoRecord Document.fields default) d := by
  refine carries_record ["file", "key", "extensional", "intensional", "negated", "order", "strata",
    "solution", "output"] ?_ (by simp) (by decide) (by decide +kernel)
  simp only [List.append_assoc, List.cons_append, List.nil_append]
  refine sets_text rfl h.file ?_
  refine sets_optionalText rfl rfl h.key ?_
  refine .field rfl (carries_legibles h.extensional) ?_
  refine .field rfl (carries_legibles h.intensional) ?_
  refine sets_optionalList rfl rfl (carries_legibles h.negated) ?_
  have horder := h.order.carries 4
  refine .set rfl (horder default).writable ((horder _).gives.bind (Gives.pure _)) ?_
  refine .field rfl (Form.carries_list (by simp [StratumDoc.toForm])
    fun s hs => (h.strata s hs).carries 0) ?_
  refine .field rfl (Form.carries_list (by simp [SolutionDoc.toForm])
    fun s hs => (h.solution s hs).carries 4) ?_
  refine sets_last ?_
  refine sets_optionalList rfl rfl (carries_legibles h.output) ?_
  exact .done _

/-- **Documents survive their text.** A portable document is what its text is read as. -/
theorem Document.parse?_render {d : Document} (h : d.Portable) :
    Document.parse? d.render = some d := by
  obtain ⟨hwritable, hgives⟩ := h.carries
  have hparse : Node.parse d.render = .ok d.toForm.toNode :=
    Node.parse_writable (by decide) (by decide) hwritable
  obtain ⟨t, hread, -⟩ := hgives { visits := 1 } ⟨rfl, rfl⟩
  have hrun : (Node.intoRecord Document.fields default d.toForm.toNode).run { visits := 1 }
      = some (some d, t) := hread
  rw [Document.parse?, hparse, Except.toOption, Option.bind_some, Node.decode?, hrun]
  rfl

end RulePlan
