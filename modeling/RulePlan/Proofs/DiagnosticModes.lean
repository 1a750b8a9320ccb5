import Mathlib.Data.List.Basic
import Mathlib.Data.List.Induction
import RulePlan.Proofs.Acceptance

/-!
# RulePlan.Proofs.DiagnosticModes — a refused line leaves no trace

What becomes of a line depends on the lines before it through the table of arities alone: reading
does not look at the names met so far, and a refused line adds nothing to the table. So each line is
judged as if the refused ones before it were not there. Accumulating reads on after a refusal and
fail-fast does not, which makes the diagnostic of fail-fast the first of those that are accumulated;
where there is none, the two readings are one and the same run.
-/

namespace RulePlan

namespace Intake

variable {file : String} {s t : Intake} {l : SourceLine}

/-! ## One line -/

/-- A line is judged by the arities recorded before it, and so are the arities after it. -/
theorem step_congr (file : String) (h : s.arities = t.arities) (l : SourceLine) :
    (step file s l).2 = (step file t l).2
      ∧ (step file s l).1.arities = (step file t l).1.arities := by
  have hparse : (Rule.parse s.symbols l.number l.text).1
      = (Rule.parse t.symbols l.number l.text).1 := rfl
  cases hread : (Rule.parse t.symbols l.number l.text).1 with
  | error fault => simp [step, hparse, hread, h]
  | ok rule =>
    cases hcheck : rule.check t.arities with
    | error cause => simp [step, hparse, hread, hcheck, h]
    | ok fixed => simp [step, hparse, hread, hcheck, h]

theorem arities_step_of_refused {d : Diagnostic} (h : (step file s l).2 = .refused d) :
    (step file s l).1.arities = s.arities :=
  (step_of_refused h).2

/-! ## Accumulating -/

/-- Accumulating judges one line after the other. -/
theorem run_accumulate_cons (file : String) (s : Intake) (l : SourceLine)
    (ls : List SourceLine) :
    run file .accumulate s (l :: ls)
      = ((run file .accumulate (step file s l).1 ls).1,
        (step file s l).2 :: (run file .accumulate (step file s l).1 ls).2) := by
  rw [run]
  split
  case h_1 s' d heq => rw [heq]
  case h_2 s' r heq => rw [heq]

theorem run_accumulate_append (file : String) (ls ms : List SourceLine) (s : Intake) :
    run file .accumulate s (ls ++ ms)
      = ((run file .accumulate (run file .accumulate s ls).1 ms).1,
        (run file .accumulate s ls).2
          ++ (run file .accumulate (run file .accumulate s ls).1 ms).2) := by
  induction ls generalizing s with
  | nil => rfl
  | cons l ls ih =>
    rw [List.cons_append, run_accumulate_cons, ih, run_accumulate_cons]
    rfl

theorem length_run_accumulate (file : String) (ls : List SourceLine) (s : Intake) :
    (run file .accumulate s ls).2.length = ls.length := by
  induction ls generalizing s with
  | nil => rfl
  | cons l ls ih =>
    rw [run_accumulate_cons]
    simp only [List.length_cons, ih]

/-- Equal arities before make equal verdicts. -/
theorem run_accumulate_congr (file : String) (ls : List SourceLine) :
    ∀ {s t : Intake}, s.arities = t.arities →
      (run file .accumulate s ls).2 = (run file .accumulate t ls).2 := by
  induction ls with
  | nil =>
    intro s t _
    rfl
  | cons l ls ih =>
    intro s t h
    obtain ⟨hverdict, harities⟩ := step_congr file h l
    rw [run_accumulate_cons, run_accumulate_cons, hverdict, ih harities]

/-- The verdict on a line, from the lines before it. -/
def verdictAfter (file : String) (s : Intake) (before : List SourceLine) (l : SourceLine) :
    Verdict :=
  (step file (run file .accumulate s before).1 l).2

theorem run_accumulate_singleton (file : String) (s : Intake) (l : SourceLine) :
    (run file .accumulate s [l]).2 = [(step file s l).2] := by
  rw [run_accumulate_cons]
  rfl

/-- Each verdict is the one on its line after the lines in front of it. -/
theorem run_accumulate_eq_map (file : String) (s : Intake) (ls : List SourceLine) :
    (run file .accumulate s ls).2
      = ls.zipIdx.map fun (l, i) => verdictAfter file s (ls.take i) l := by
  induction ls using List.reverseRecOn with
  | nil => rfl
  | append_singleton ls l ih =>
    have hfront : ∀ x ∈ ls.zipIdx, verdictAfter file s (ls.take x.2) x.1
        = verdictAfter file s ((ls ++ [l]).take x.2) x.1 := by
      intro x hx
      have hlt : x.2 < ls.length := (List.getElem?_eq_some_iff.1
        (List.mem_zipIdx_iff_getElem?.1 hx)).1
      rw [List.take_append_of_le_length (Nat.le_of_lt hlt)]
    have hlast : (ls ++ [l]).take ls.length = ls := List.take_left
    rw [run_accumulate_append, run_accumulate_singleton, ih, List.zipIdx_append, List.map_append,
      List.map_congr_left hfront]
    simp [verdictAfter, hlast]

/-! ## The accepted lines alone -/

/-- The lines that accumulating accepts. -/
def acceptedLines (file : String) (s : Intake) (ls : List SourceLine) : List SourceLine :=
  ((ls.zip (run file .accumulate s ls).2).filter (·.2.rule?.isSome)).map Prod.fst

theorem acceptedLines_cons_of_accepted {r : Rule} (h : (step file s l).2 = .accepted r)
    (ls : List SourceLine) :
    acceptedLines file s (l :: ls) = l :: acceptedLines file (step file s l).1 ls := by
  unfold acceptedLines
  rw [run_accumulate_cons, h]
  rfl

theorem acceptedLines_cons_of_refused {d : Diagnostic} (h : (step file s l).2 = .refused d)
    (ls : List SourceLine) :
    acceptedLines file s (l :: ls) = acceptedLines file (step file s l).1 ls := by
  unfold acceptedLines
  rw [run_accumulate_cons, h]
  rfl

/-- Reading the accepted lines alone refuses none of them and records the same arities. -/
theorem run_acceptedLines (file : String) (ls : List SourceLine) :
    ∀ {s t : Intake}, s.arities = t.arities →
      (run file .accumulate t (acceptedLines file s ls)).1.arities
          = (run file .accumulate s ls).1.arities
        ∧ (run file .accumulate t (acceptedLines file s ls)).2.filterMap Verdict.diagnostic?
          = [] := by
  induction ls with
  | nil =>
    intro s t h
    exact ⟨h.symm, rfl⟩
  | cons l ls ih =>
    intro s t h
    cases hverdict : (step file s l).2 with
    | accepted r =>
      obtain ⟨hsame, harities⟩ := step_congr file h l
      obtain ⟨hrest, hnone⟩ := ih harities
      rw [acceptedLines_cons_of_accepted hverdict, run_accumulate_cons, run_accumulate_cons,
        ← hsame, hverdict]
      exact ⟨hrest, hnone⟩
    | refused d =>
      -- the refused line is not there on the left, and changes no arity on the right
      have harities := (arities_step_of_refused hverdict).trans h
      rw [acceptedLines_cons_of_refused hverdict, run_accumulate_cons]
      exact ih harities

/-! ## Fail-fast -/

/-- Fail-fast reports the first of the diagnostics that accumulating reports. -/
theorem diagnostics_failFast (file : String) (ls : List SourceLine) (s : Intake) :
    (run file .failFast s ls).2.filterMap Verdict.diagnostic?
      = ((run file .accumulate s ls).2.filterMap Verdict.diagnostic?).take 1 := by
  induction ls generalizing s with
  | nil => rfl
  | cons l ls ih =>
    rw [run_accumulate_cons, run]
    split
    case h_1 s' d heq =>
      rw [heq]
      rfl
    case h_2 s' r heq =>
      rw [heq]
      exact ih s'

/-- Without a refusal the two modes are one run. -/
theorem run_failFast_of_diagnostics_eq_nil {ls : List SourceLine} :
    ∀ {s : Intake}, (run file .accumulate s ls).2.filterMap Verdict.diagnostic? = [] →
      run file .failFast s ls = run file .accumulate s ls := by
  induction ls with
  | nil =>
    intro s _
    rfl
  | cons l ls ih =>
    intro s h
    rw [run_accumulate_cons] at h ⊢
    rw [run]
    split
    case h_1 s' d heq =>
      rw [heq] at h
      cases h
    case h_2 s' r heq =>
      rw [heq] at h ⊢
      simp only [ih h]

end Intake

/-! ## Outcomes -/

namespace Ingestion

variable {file : String} {mode : Mode} {lines : List SourceLine}

theorem result_eq_ok_iff {p : Program} :
    (ofLines file mode lines).result = .ok p
      ↔ (Intake.run file mode .start lines).2.filterMap Verdict.diagnostic? = []
        ∧ (Intake.run file mode .start lines).1.program file = p := by
  unfold ofLines
  simp only
  split
  case h_1 hnil => simp [hnil]
  case h_2 hne => exact iff_of_false nofun fun h => hne h.1

theorem result_eq_error_iff {ds : List Diagnostic} :
    (ofLines file mode lines).result = .error ds
      ↔ ds ≠ [] ∧ (Intake.run file mode .start lines).2.filterMap Verdict.diagnostic? = ds := by
  unfold ofLines
  simp only
  split
  case h_1 hnil =>
    rw [hnil]
    exact iff_of_false nofun fun h => h.1 h.2.symm
  case h_2 hne =>
    constructor
    · intro h
      obtain rfl := Except.error.inj h
      exact ⟨hne, rfl⟩
    · rintro ⟨-, rfl⟩
      rfl

theorem verdicts_eq (file : String) (mode : Mode) (lines : List SourceLine) :
    (ofLines file mode lines).verdicts = (Intake.run file mode .start lines).2 := by
  unfold ofLines
  simp only
  split <;> rfl

/-- The diagnostic of a reading that ended with a single one. -/
def failure? (i : Ingestion) : Option Diagnostic :=
  match i.result with
  | .error [d] => some d
  | _ => none

/-- The lines that accumulating accepts, from the start. -/
def accepted (file : String) (lines : List SourceLine) : List SourceLine :=
  ((lines.zip (ofLines file .accumulate lines).verdicts).filter (·.2.rule?.isSome)).map Prod.fst

theorem accepted_eq (file : String) (lines : List SourceLine) :
    accepted file lines = Intake.acceptedLines file .start lines := by
  unfold accepted Intake.acceptedLines
  rw [verdicts_eq]

/-- Fail-fast reading of the lines accepted so far and one more has nothing to report but the
verdict on that one. -/
theorem diagnostics_accepted_append (file : String) (before : List SourceLine) (l : SourceLine) :
    (Intake.run file .failFast .start (accepted file before ++ [l])).2.filterMap
        Verdict.diagnostic?
      = (Intake.verdictAfter file .start before l).diagnostic?.toList := by
  obtain ⟨harities, hnone⟩ := Intake.run_acceptedLines file before (s := .start) (t := .start) rfl
  have hsame := (Intake.step_congr file harities l).1
  rw [Intake.diagnostics_failFast, Intake.run_accumulate_append, List.filterMap_append, accepted_eq,
    hnone, List.nil_append, Intake.run_accumulate_singleton, hsame]
  show (List.filterMap Verdict.diagnostic? [Intake.verdictAfter file .start before l]).take 1 = _
  cases Intake.verdictAfter file .start before l with
  | accepted r => rfl
  | refused d => rfl

theorem failure?_accepted_append (file : String) (before : List SourceLine) (l : SourceLine) :
    (ofLines file .failFast (accepted file before ++ [l])).failure?
      = (Intake.verdictAfter file .start before l).diagnostic? := by
  have hdiagnostics := diagnostics_accepted_append file before l
  unfold failure?
  cases hverdict : (Intake.verdictAfter file .start before l).diagnostic? with
  | none =>
    rw [hverdict] at hdiagnostics
    rw [result_eq_ok_iff.2 ⟨hdiagnostics, rfl⟩]
  | some d =>
    rw [hverdict] at hdiagnostics
    rw [result_eq_error_iff.2 ⟨List.cons_ne_nil d [], hdiagnostics⟩]

/-- **The modes agree, and a refused line leaves no trace.** Accumulating gives a program iff
fail-fast does, and the same one. Otherwise it reports one diagnostic for each line that fail-fast
reading refuses after the lines accepted before it, in the order of the lines and in the very words
of fail-fast, which itself stops at the first of them. Taking a refused line out of the source
changes no verdict on the others. All lines are in valid UTF-8. -/
theorem modes_agree (file : String) (lines : List SourceLine) :
    (∀ p, (ofLines file .accumulate lines).result = .ok p
        ↔ (ofLines file .failFast lines).result = .ok p)
      ∧ (∀ ds, (ofLines file .accumulate lines).result = .error ds →
        ds = lines.zipIdx.filterMap
            (fun (l, i) => (ofLines file .failFast (accepted file (lines.take i) ++ [l])).failure?)
          ∧ ∃ d, ds.head? = some d ∧ (ofLines file .failFast lines).result = .error [d])
      ∧ (∀ ds, (ofLines file .failFast lines).result = .error ds → ∃ d, ds = [d])
      ∧ ∀ before l after, lines = before ++ l :: after → ∀ d,
        (ofLines file .failFast (accepted file before ++ [l])).result = .error [d] →
        (ofLines file .accumulate lines).verdicts
          = (ofLines file .accumulate before).verdicts ++ .refused d
            :: (ofLines file .accumulate (before ++ after)).verdicts.drop before.length := by
  have hfirst := Intake.diagnostics_failFast file lines .start
  refine ⟨?_, ?_, ?_, ?_⟩
  · intro p
    rw [result_eq_ok_iff, result_eq_ok_iff, hfirst]
    constructor
    · rintro ⟨hnone, hp⟩
      rw [Intake.run_failFast_of_diagnostics_eq_nil hnone, hnone]
      exact ⟨rfl, hp⟩
    · rintro ⟨hnone, hp⟩
      have hall := (List.take_eq_nil_iff.1 hnone).resolve_left Nat.one_ne_zero
      rw [Intake.run_failFast_of_diagnostics_eq_nil hall] at hp
      exact ⟨hall, hp⟩
  · intro ds hds
    obtain ⟨hne, hall⟩ := result_eq_error_iff.1 hds
    constructor
    · rw [← hall, Intake.run_accumulate_eq_map, List.filterMap_map]
      refine List.filterMap_congr fun x _ => ?_
      exact (failure?_accepted_append file (lines.take x.2) x.1).symm
    · obtain ⟨d, rest, rfl⟩ := List.exists_cons_of_ne_nil hne
      refine ⟨d, rfl, result_eq_error_iff.2 ⟨List.cons_ne_nil d [], ?_⟩⟩
      rw [hfirst, hall]
      rfl
  · intro ds hds
    obtain ⟨hne, rfl⟩ := result_eq_error_iff.1 hds
    rw [hfirst] at hne ⊢
    cases hall : (Intake.run file .accumulate .start lines).2.filterMap Verdict.diagnostic? with
    | nil => simp [hall] at hne
    | cons d rest => exact ⟨d, rfl⟩
  · rintro before l after rfl d hd
    obtain ⟨-, hdiagnostics⟩ := result_eq_error_iff.1 hd
    rw [diagnostics_accepted_append] at hdiagnostics
    have hverdict : Intake.verdictAfter file .start before l = .refused d := by
      cases hv : Intake.verdictAfter file .start before l with
      | accepted r => simp [hv, Verdict.diagnostic?] at hdiagnostics
      | refused d' => simpa [hv, Verdict.diagnostic?] using hdiagnostics
    -- the lines after it meet the same arities with and without the refused line
    have hafter := Intake.run_accumulate_congr file after (Intake.arities_step_of_refused hverdict)
    have hlength := Intake.length_run_accumulate file before .start
    rw [verdicts_eq, verdicts_eq, verdicts_eq, Intake.run_accumulate_append,
      Intake.run_accumulate_append, Intake.run_accumulate_cons, hafter, ← hlength,
      List.drop_left]
    show _ ++ Intake.verdictAfter file .start before l :: _ = _
    rw [hverdict]

end Ingestion

end RulePlan
