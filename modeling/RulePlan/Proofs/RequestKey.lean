import RulePlan.Proofs.FailureClasses
import RulePlan.Proofs.MarkedText
import RulePlan.Proofs.OrderInvariance
import RulePlan.Proofs.RenderedRule

/-!
# RulePlan.Proofs.RequestKey — what the text that identifies a request determines

The text lists file, source, outputs and mode. The source is preceded by its length, so that any
source can be read back; the file and the outputs are only ended by a semicolon. The text therefore
determines the request, up to the order of the outputs, as long as neither the file nor an output
has a semicolon in its name; and requests that agree so far compile alike.
-/

namespace RulePlan

/-! ## Texts of known length -/

namespace Text

/-- A text of known length is determined whatever follows it. -/
theorem eq_of_append_sized {s t : String} {x y : List Char}
    (hsize : s.utf8ByteSize = t.utf8ByteSize) (h : s.toList ++ x = t.toList ++ y) :
    s = t ∧ x = y := by
  -- One text continues the other, and by the lengths the continuation is empty.
  have longer : ∀ {s t : String} {d : List Char}, s.utf8ByteSize = t.utf8ByteSize →
      t.toList = s.toList ++ d → s = t ∧ d = [] := by
    intro s t d hsize hd
    have ht : t = s ++ String.ofList d := by
      rw [← String.toList_inj, hd, String.toList_append, String.toList_ofList]
    have hzero : (String.ofList d).utf8ByteSize = 0 := by
      rw [ht, String.utf8ByteSize_append] at hsize
      omega
    have hempty : String.ofList d = "" := String.utf8ByteSize_eq_zero_iff.1 hzero
    refine ⟨by rw [ht, hempty, String.append_empty], ?_⟩
    simpa using congrArg String.toList hempty
  rcases List.append_eq_append_iff.1 h with ⟨d, hd, hx⟩ | ⟨d, hd, hy⟩
  · obtain ⟨heq, rfl⟩ := longer hsize hd
    exact ⟨heq, hx⟩
  · obtain ⟨heq, rfl⟩ := longer hsize.symm hd
    exact ⟨heq.symm, hy.symm⟩

end Text

/-! ## The text of a request -/

theorem Mode.label_injective : Function.Injective Mode.label := by
  intro m n
  cases m <;> cases n <;> decide

namespace Request

/-- Neither the file nor an output has a semicolon in its name. -/
def Plain (r : Request) : Prop :=
  ';' ∉ r.file.toList ∧ ∀ name ∈ r.outputs, ';' ∉ name.toList

instance (r : Request) : Decidable r.Plain :=
  inferInstanceAs (Decidable (_ ∧ ∀ name ∈ r.outputs, ';' ∉ name.toList))

/-- What the text lists after the source: the outputs in order of name, and the mode. -/
def choices (r : Request) : List (List Char) :=
  (Names.sorted r.outputs).map String.toList ++ ["MODE:".toList ++ r.mode.label.toList]

theorem toList_keyText (r : Request) :
    r.keyText.toList = ("FILE:".toList ++ r.file.toList) ++ ';' ::
      (("SOURCE:".toList ++ Text.Decimal.digits r.source.utf8ByteSize) ++ ':' ::
        (r.source.toList ++ (";OUTPUTS:".toList ++ Text.marked ';' r.choices))) := by
  have hmarks : ";SOURCE:".toList = ';' :: "SOURCE:".toList ∧ ":".toList = [':']
      ∧ ";".toList = [';'] := ⟨rfl, rfl, rfl⟩
  obtain ⟨hsource, hcolon, hsemicolon⟩ := hmarks
  have hnames : (String.join ((Names.sorted r.outputs).map (· ++ ";"))).toList
      = Text.marked ';' ((Names.sorted r.outputs).map String.toList) := by
    simp only [String.toList_join, Text.marked, List.flatMap_map, String.toList_append, hsemicolon]
  have hchoices : Text.marked ';' r.choices
      = Text.marked ';' ((Names.sorted r.outputs).map String.toList)
        ++ ("MODE:".toList ++ (r.mode.label.toList ++ [';'])) := by
    simp only [choices, Text.marked, List.flatMap_append, List.flatMap_singleton, List.append_assoc]
  delta keyText
  simp only [String.toList_append, hnames, hchoices, hsource, hcolon, hsemicolon,
    Grammar.toList_ofNat, List.append_assoc, List.cons_append, List.nil_append]

theorem Plain.not_mem_choices {r : Request} (h : r.Plain) : ∀ piece ∈ r.choices, ';' ∉ piece := by
  intro piece hpiece
  rcases List.mem_append.1 hpiece with houtput | hmode
  · obtain ⟨name, hname, rfl⟩ := List.mem_map.1 houtput
    exact h.2 name (List.mem_mergeSort.1 hname)
  · rw [List.mem_singleton.1 hmode]
    cases r.mode <;> decide

/-- The choices determine the mode, and the outputs up to their order. -/
theorem choices_eq_iff {r r' : Request} :
    r.choices = r'.choices ↔ r.outputs.Perm r'.outputs ∧ r.mode = r'.mode := by
  constructor
  · intro h
    obtain ⟨hnames, hmode⟩ := List.append_inj' h rfl
    have hsorted : Names.sorted r.outputs = Names.sorted r'.outputs :=
      List.map_injective_iff.2 (fun _ _ => String.toList_inj.1) hnames
    refine ⟨?_, Mode.label_injective (String.toList_inj.1 ?_)⟩
    · calc r.outputs.Perm (Names.sorted r.outputs) := (List.mergeSort_perm _ _).symm
        _ = Names.sorted r'.outputs := hsorted
        List.Perm _ r'.outputs := List.mergeSort_perm _ _
    · simpa using hmode
  · rintro ⟨houtputs, hmode⟩
    rw [choices, choices, Names.sorted_eq_of_perm houtputs, hmode]

/-- The text of plain requests determines them up to the order of their outputs. -/
theorem keyText_eq_iff {r r' : Request} (h : r.Plain) (h' : r'.Plain) :
    r.keyText = r'.keyText ↔
      r.file = r'.file ∧ r.source = r'.source ∧ r.outputs.Perm r'.outputs ∧ r.mode = r'.mode := by
  rw [← String.toList_inj, toList_keyText, toList_keyText, ← choices_eq_iff]
  constructor
  · intro htext
    have file_mark : ∀ {r : Request}, r.Plain → ';' ∉ "FILE:".toList ++ r.file.toList := by
      intro r h hmem
      rcases List.mem_append.1 hmem with hmem | hmem
      · exact absurd hmem (by decide)
      · exact h.1 hmem
    have size_mark : ∀ n : Nat, ':' ∉ Text.Decimal.digits n := by
      intro n hmem
      exact absurd (Grammar.isDigit_of_mem_digits ':' hmem) (by decide)
    -- The file ends at the first semicolon, the length of the source at the colon after it.
    obtain ⟨hfile, hrest⟩ := Text.eq_of_append_mark (file_mark h) (file_mark h') htext
    rw [List.append_assoc, List.append_assoc] at hrest
    obtain ⟨hdigits, hrest⟩ := Text.eq_of_append_mark (size_mark _) (size_mark _)
      (List.append_cancel_left hrest)
    obtain ⟨hsource, hrest⟩ := Text.eq_of_append_sized (Text.Decimal.eq_of_digits hdigits) hrest
    have hchoices : r.choices = r'.choices :=
      Text.eq_of_marked h.not_mem_choices h'.not_mem_choices (List.append_cancel_left hrest)
    exact ⟨String.toList_inj.1 (List.append_cancel_left hfile), hsource, hchoices⟩
  · rintro ⟨hfile, hsource, hchoices⟩
    rw [hfile, hsource, hchoices]

end Request

/-! ## Compiling requests with one text -/

theorem Solution.outputs_eq_of_perm {a b : List String} (h : a.Perm b) :
    Solution.outputs a = Solution.outputs b := by
  refine Names.sorted_eq_of_mem_iff (Names.nodup_ofList _) (Names.nodup_ofList _) ?_
  intro x
  rw [Names.mem_ofList, Names.mem_ofList]
  exact (h.filter _).mem_iff

/-- Plain requests with one text compile alike. -/
theorem Plan.compile_eq_of_keyText {r r' : Request} (h : r.Plain) (h' : r'.Plain)
    (htext : r.keyText = r'.keyText) : compile r = compile r' := by
  have hkey : r.key = r'.key := by rw [Request.key, Request.key, htext]
  obtain ⟨hfile, hsource, houtputs, hmode⟩ := (Request.keyText_eq_iff h h').1 htext
  rw [compile, compile, stages, stages, hfile, hsource, hmode, hkey,
    Solution.outputs_eq_of_perm houtputs]

end RulePlan
