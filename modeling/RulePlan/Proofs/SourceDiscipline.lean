import RulePlan.Proofs.Acceptance

/-!
# RulePlan.Proofs.SourceDiscipline — which sources are accepted

A source is accepted iff all its lines can be read, each rule is safe by itself, and no predicate
changes its arity from one occurrence to another. The first two conditions are about single lines.
Arities are compared through a table that grows line by line, and within a rule through the entries
it is about to add; `Fits` says of both at once that atoms agree with a table and with each other,
and checking atoms moves them from the one side to the other. Reading stops early in one mode and
goes on in the other, but a refused line spoils the outcome in both.
-/

namespace RulePlan

/-! ## Atoms that agree on arities -/

/-- Atoms have the arities that a table records, and agree with one another where it is silent. -/
structure Fits (table : List ArityEntry) (atoms : List Atom) : Prop where
  recorded : ∀ a ∈ atoms, ∀ n, arityIn table a.predicate = some n → n = a.arity
  uniform : ∀ a ∈ atoms, ∀ b ∈ atoms, a.predicate = b.predicate → a.arity = b.arity

theorem fits_nil_iff {atoms : List Atom} : Fits [] atoms ↔
    ∀ a ∈ atoms, ∀ b ∈ atoms, a.predicate = b.predicate → a.arity = b.arity := by
  constructor
  · exact Fits.uniform
  · intro huniform
    refine ⟨?_, huniform⟩
    intro a _ n hn
    cases hn

/-- An atom of a known predicate must have the known arity; it then says nothing new. -/
theorem fits_cons_of_some {table : List ArityEntry} {a : Atom} {n : Nat}
    (h : arityIn table a.predicate = some n) (atoms : List Atom) :
    Fits table (a :: atoms) ↔ n = a.arity ∧ Fits table atoms := by
  constructor
  · rintro ⟨hrecorded, huniform⟩
    refine ⟨hrecorded a List.mem_cons_self n h, ?_, ?_⟩
    · exact fun b hb => hrecorded b (List.mem_cons_of_mem a hb)
    · intro b hb c hc
      exact huniform b (List.mem_cons_of_mem a hb) c (List.mem_cons_of_mem a hc)
  · rintro ⟨rfl, hrecorded, huniform⟩
    -- the table already forces the arity of `a` on every atom of its predicate
    have hsame : ∀ b ∈ atoms, a.predicate = b.predicate → a.arity = b.arity :=
      fun b hb hab => hrecorded b hb a.arity (hab ▸ h)
    constructor
    · intro b hb m hm
      rcases List.mem_cons.1 hb with rfl | hb
      · rw [h] at hm
        exact (Option.some.inj hm).symm
      · exact hrecorded b hb m hm
    · intro b hb c hc hbc
      rcases List.mem_cons.1 hb with hb | hb <;> rcases List.mem_cons.1 hc with hc | hc
      · rw [hb, hc]
      · rw [hb] at hbc ⊢
        exact hsame c hc hbc
      · rw [hc] at hbc ⊢
        exact (hsame b hb hbc.symm).symm
      · exact huniform b hb c hc hbc

theorem arityIn_append_entry (table : List ArityEntry) (a : Atom) (line : Int) (name : String) :
    arityIn (table ++ [⟨a.predicate, a.arity, line⟩]) name
      = (arityIn table name).or (if a.predicate = name then some a.arity else none) := by
  rw [arityIn_append]
  congr 1
  by_cases h : a.predicate = name
  · simp [arityIn, h]
  · simp [arityIn, h]

/-- An atom of an unknown predicate fixes its arity for the atoms after it. -/
theorem fits_cons_of_none {table : List ArityEntry} {a : Atom}
    (h : arityIn table a.predicate = none) (line : Int) (atoms : List Atom) :
    Fits table (a :: atoms) ↔ Fits (table ++ [⟨a.predicate, a.arity, line⟩]) atoms := by
  have hself : arityIn (table ++ [⟨a.predicate, a.arity, line⟩]) a.predicate = some a.arity := by
    rw [arityIn_append_entry, h, if_pos rfl, Option.none_or]
  have hother : ∀ {b : Atom} {n : Nat}, a.predicate ≠ b.predicate →
      (arityIn (table ++ [⟨a.predicate, a.arity, line⟩]) b.predicate = some n ↔
        arityIn table b.predicate = some n) := by
    intro b n hne
    rw [arityIn_append_entry, if_neg hne, Option.or_none]
  constructor
  · rintro ⟨hrecorded, huniform⟩
    constructor
    · intro b hb n hn
      by_cases hab : a.predicate = b.predicate
      · rw [← hab, hself] at hn
        obtain rfl := Option.some.inj hn
        exact huniform a List.mem_cons_self b (List.mem_cons_of_mem a hb) hab
      · exact hrecorded b (List.mem_cons_of_mem a hb) n ((hother hab).1 hn)
    · intro b hb c hc
      exact huniform b (List.mem_cons_of_mem a hb) c (List.mem_cons_of_mem a hc)
  · intro hfits
    have hfull : Fits (table ++ [⟨a.predicate, a.arity, line⟩]) (a :: atoms) :=
      (fits_cons_of_some hself atoms).2 ⟨rfl, hfits⟩
    refine ⟨?_, hfull.uniform⟩
    intro b hb n hn
    exact hfull.recorded b hb n (arityIn_append_of_eq_some hn _)

theorem arityIn_of_find?_eq_some {table : List ArityEntry} {name : String} {e : ArityEntry}
    (h : table.find? (·.predicate == name) = some e) : arityIn table name = some e.arity := by
  rw [arityIn, h, Option.map_some]

theorem arityIn_of_find?_eq_none {table : List ArityEntry} {name : String}
    (h : table.find? (·.predicate == name) = none) : arityIn table name = none := by
  rw [arityIn, h, Option.map_none]

/-- What the answer to a check of atoms says: the atoms fit no table with more, or they have moved
into the table, so that other atoms fit the longer one iff all together fit the shorter one. -/
def Settles (table : List ArityEntry) (atoms : List Atom) (known : List ArityEntry) :
    Except Refusal (List ArityEntry) → Prop
  | .ok fixed => ∀ more, Fits table (atoms ++ more) ↔ Fits (known ++ fixed) more
  | .error _ => ∀ more, ¬Fits table (atoms ++ more)

/-- An atom of a known predicate settles the check, or leaves it to the atoms after it. -/
theorem Settles.cons_of_some {table known : List ArityEntry} {a : Atom} {n : Nat}
    {atoms : List Atom} {answer : Except Refusal (List ArityEntry)}
    (h : Settles table atoms known answer) (hn : arityIn table a.predicate = some n)
    (cause : Refusal) :
    Settles table (a :: atoms) known (if n = a.arity then answer else .error cause) := by
  have hcons : ∀ more, Fits table (a :: atoms ++ more) ↔
      n = a.arity ∧ Fits table (atoms ++ more) := fun more => fits_cons_of_some hn (atoms ++ more)
  split
  case isTrue harity =>
    cases answer with
    | ok fixed =>
      intro more
      rw [hcons more, and_iff_right harity]
      exact h more
    | error cause' =>
      intro more hfits
      exact h more ((hcons more).1 hfits).2
  case isFalse harity =>
    intro more hfits
    exact harity ((hcons more).1 hfits).1

theorem Settles.cons_of_none {table known : List ArityEntry} {a : Atom} {line : Int}
    {atoms : List Atom} {answer : Except Refusal (List ArityEntry)}
    (h : Settles (table ++ [⟨a.predicate, a.arity, line⟩]) atoms known answer)
    (hnone : arityIn table a.predicate = none) : Settles table (a :: atoms) known answer := by
  have hcons := fun more => fits_cons_of_none hnone line (atoms ++ more)
  cases answer with
  | ok fixed => exact fun more => (hcons more).trans (h more)
  | error cause => exact fun more hfits => h more ((hcons more).1 hfits)

/-- Checking atoms against the known arities and those fixed so far settles whether they fit. -/
theorem Rule.settles_newArities (known : List ArityEntry) (line : Int) (atoms : List Atom) :
    ∀ fixed, Settles (known ++ fixed) atoms known (Rule.newArities known line fixed atoms) := by
  induction atoms with
  | nil => exact fun fixed more => Iff.rfl
  | cons a atoms ih =>
    intro fixed
    unfold Rule.newArities
    split
    case h_1 e he =>
      refine (ih fixed).cons_of_some ?_ _
      exact arityIn_append_of_eq_some (arityIn_of_find?_eq_some he) fixed
    case h_2 hknown =>
      have hnone := arityIn_of_find?_eq_none hknown
      split
      case h_1 e he =>
        refine (ih fixed).cons_of_some ?_ _
        rw [arityIn_append, hnone, Option.none_or, arityIn_of_find?_eq_some he]
      case h_2 hfixed =>
        have hrest := ih (fixed ++ [⟨a.predicate, a.arity, line⟩])
        rw [← List.append_assoc] at hrest
        refine hrest.cons_of_none ?_
        rw [arityIn_append, hnone, Option.none_or, arityIn_of_find?_eq_none hfixed]

/-! ## Lines -/

namespace SourceLine

/-- The line can be read as a rule. Reading does not depend on the names met before. -/
def Reads (l : SourceLine) (r : Rule) : Prop := (Rule.read l.number l.text).result = .ok r

/-- The rules that lines can be read as. -/
def rules (lines : List SourceLine) : List Rule :=
  lines.filterMap fun l => (Rule.read l.number l.text).result.toOption

theorem rules_cons {l : SourceLine} {r : Rule} (h : l.Reads r) (lines : List SourceLine) :
    rules (l :: lines) = r :: rules lines := by
  unfold rules
  rw [List.filterMap_cons, show (Rule.read l.number l.text).result = .ok r from h]
  rfl

/-- Lines may be taken in after others that left a table of arities behind. -/
def Admissible (table : List ArityEntry) (lines : List SourceLine) : Prop :=
  (∀ l ∈ lines, ∃ r, l.Reads r) ∧ (∀ r ∈ rules lines, r.Safe)
    ∧ Fits table ((rules lines).flatMap Rule.atoms)

theorem not_admissible_cons {table : List ArityEntry} {l : SourceLine}
    (h : ∀ r, ¬l.Reads r) (lines : List SourceLine) : ¬Admissible table (l :: lines) := by
  rintro ⟨hread, -⟩
  obtain ⟨r, hr⟩ := hread l List.mem_cons_self
  exact h r hr

theorem admissible_cons_iff {table : List ArityEntry} {l : SourceLine} {r : Rule}
    (h : l.Reads r) (lines : List SourceLine) :
    Admissible table (l :: lines) ↔
      (∀ l ∈ lines, ∃ r, l.Reads r) ∧ (r.Safe ∧ ∀ r ∈ rules lines, r.Safe)
        ∧ Fits table (r.atoms ++ (rules lines).flatMap Rule.atoms) := by
  unfold Admissible
  rw [rules_cons h, List.forall_mem_cons, List.forall_mem_cons, List.flatMap_cons]
  exact and_congr_left fun _ => and_iff_right ⟨r, h⟩

end SourceLine

namespace Intake

open SourceLine

/-- A line that reads as a rule and passes its checks moves its atoms into the table. -/
theorem admissible_accepted {table fixed : List ArityEntry} {l : SourceLine} {r : Rule}
    (hread : l.Reads r) (hcheck : r.check table = .ok fixed) (lines : List SourceLine) :
    Admissible table (l :: lines) ↔ Admissible (table ++ fixed) lines := by
  obtain ⟨hsafe, hfixed⟩ := Rule.check_eq_ok_iff.1 hcheck
  have hsettles := Rule.settles_newArities table r.line r.atoms []
  rw [List.append_nil, hfixed] at hsettles
  rw [admissible_cons_iff hread, hsettles, and_iff_right hsafe]
  rfl

/-- A line that fails a check cannot be helped by the lines after it. -/
theorem not_admissible_refused {table : List ArityEntry} {l : SourceLine} {r : Rule}
    {cause : Refusal} (hread : l.Reads r) (hcheck : r.check table = .error cause)
    (lines : List SourceLine) : ¬Admissible table (l :: lines) := by
  rw [admissible_cons_iff hread]
  rintro ⟨-, ⟨hsafe, -⟩, hfits⟩
  have hsettles := Rule.settles_newArities table r.line r.atoms []
  rw [List.append_nil] at hsettles
  cases hnew : Rule.newArities table r.line [] r.atoms with
  | ok fixed =>
    have hpass := Rule.check_eq_ok_iff.2 ⟨hsafe, hnew⟩
    exact nomatch hcheck.symm.trans hpass
  | error cause' =>
    rw [hnew] at hsettles
    exact hsettles _ hfits

theorem step_accepted (file : String) {s : Intake} {l : SourceLine} {r : Rule}
    {fixed : List ArityEntry} (hread : l.Reads r) (hcheck : r.check s.arities = .ok fixed) :
    (step file s l).2 = .accepted r ∧ (step file s l).1.arities = s.arities ++ fixed := by
  have hparse : (Rule.parse s.symbols l.number l.text).1 = .ok r := hread
  simp [step, hparse, hcheck]

theorem step_refused (file : String) {s : Intake} {l : SourceLine}
    (h : ∀ r, l.Reads r → ∃ cause, r.check s.arities = .error cause) :
    ∃ d, (step file s l).2 = .refused d := by
  cases hread : (Rule.parse s.symbols l.number l.text).1 with
  | error fault => exact ⟨fault.report file l.number, by simp [step, hread]⟩
  | ok r =>
    obtain ⟨cause, hcause⟩ := h r hread
    exact ⟨cause.report file l.number, by simp [step, hread, hcause]⟩

theorem run_cons_accepted {file : String} {mode : Mode} {s : Intake} {l : SourceLine} {r : Rule}
    (h : (step file s l).2 = .accepted r) (lines : List SourceLine) :
    (run file mode s (l :: lines)).2
      = .accepted r :: (run file mode (step file s l).1 lines).2 := by
  rw [run]
  split
  case h_1 heq =>
    rw [heq] at h
    cases h
  case h_2 s' r' heq =>
    rw [heq] at h ⊢
    rw [Verdict.accepted.inj h]

/-- A refused line is reported in both modes. -/
theorem mem_run_of_refused {file : String} {mode : Mode} {s : Intake} {l : SourceLine}
    {d : Diagnostic} (h : (step file s l).2 = .refused d) (lines : List SourceLine) :
    .refused d ∈ (run file mode s (l :: lines)).2 := by
  unfold run
  split
  case h_1 s' d' heq =>
    rw [heq] at h
    obtain rfl := Verdict.refused.inj h
    cases mode <;> exact List.mem_cons_self
  case h_2 heq =>
    rw [heq] at h
    cases h

/-- Reading refuses no line iff the lines may be taken in, whichever mode it is in. -/
theorem forall_accepted_iff (file : String) (mode : Mode) (lines : List SourceLine) :
    ∀ s, (∀ v ∈ (run file mode s lines).2, v.diagnostic? = none) ↔
      Admissible s.arities lines := by
  induction lines with
  | nil =>
    intro s
    refine iff_of_true (fun v hv => absurd hv List.not_mem_nil) ⟨?_, ?_, ?_⟩
    · exact fun l hl => absurd hl List.not_mem_nil
    · exact fun r hr => absurd hr List.not_mem_nil
    · exact ⟨fun a ha => absurd ha List.not_mem_nil, fun a ha => absurd ha List.not_mem_nil⟩
  | cons l lines ih =>
    intro s
    have hrefused : (∀ r, l.Reads r → ∃ cause, r.check s.arities = .error cause) →
        ¬∀ v ∈ (run file mode s (l :: lines)).2, v.diagnostic? = none := by
      intro h hall
      obtain ⟨d, hd⟩ := step_refused file h
      exact nomatch hall _ (mem_run_of_refused hd lines)
    cases hread : (Rule.read l.number l.text).result with
    | error fault =>
      have hnone : ∀ r, ¬l.Reads r := fun r hr => nomatch hread.symm.trans hr
      exact iff_of_false (hrefused fun r hr => absurd hr (hnone r))
        (not_admissible_cons hnone lines)
    | ok r =>
      cases hcheck : r.check s.arities with
      | error cause =>
        refine iff_of_false (hrefused fun q hq => ?_) (not_admissible_refused hread hcheck lines)
        obtain rfl : r = q := Except.ok.inj (hread.symm.trans hq)
        exact ⟨cause, hcheck⟩
      | ok fixed =>
        obtain ⟨hverdict, harities⟩ := step_accepted file hread hcheck
        rw [admissible_accepted hread hcheck lines, run_cons_accepted hverdict lines,
          List.forall_mem_cons, ← harities, ← ih]
        exact and_iff_right rfl

end Intake

/-! ## Sources -/

theorem Ingestion.isOk_iff (file : String) (mode : Mode) (lines : List SourceLine) :
    (∃ p, (ofLines file mode lines).result = .ok p) ↔
      ∀ v ∈ (Intake.run file mode .start lines).2, v.diagnostic? = none := by
  rw [← List.filterMap_eq_nil_iff]
  unfold ofLines
  simp only
  split
  case h_1 hnil => exact iff_of_true ⟨_, rfl⟩ hnil
  case h_2 hsome => exact iff_of_false (fun ⟨p, hp⟩ => nomatch hp) hsome

/-- **Acceptance is the safety discipline.** In either mode a program comes out of a source in valid
UTF-8 iff all its rule lines can be read, every rule is safe, and any two atoms of the same
predicate, wherever they stand in the source, have the same number of arguments. -/
theorem Program.ofSource_isOk_iff (file source : String) (mode : Mode) :
    (∃ p, Program.ofSource file source mode = .ok p) ↔
      (∀ l ∈ SourceLine.ofSource source, ∃ r, l.Reads r)
      ∧ (∀ r ∈ SourceLine.rules (SourceLine.ofSource source), r.Safe)
      ∧ ∀ r ∈ SourceLine.rules (SourceLine.ofSource source), ∀ a ∈ r.atoms,
        ∀ q ∈ SourceLine.rules (SourceLine.ofSource source), ∀ b ∈ q.atoms,
          a.predicate = b.predicate → a.arity = b.arity := by
  have haccepted := (Ingestion.isOk_iff file mode (SourceLine.ofSource source)).trans
    (Intake.forall_accepted_iff file mode (SourceLine.ofSource source) .start)
  refine haccepted.trans ?_
  show _ ∧ _ ∧ Fits [] _ ↔ _
  rw [fits_nil_iff]
  refine and_congr_right fun _ => and_congr_right fun _ => ?_
  simp only [List.mem_flatMap]
  constructor
  · intro h r hr a ha q hq b hb
    exact h a ⟨r, hr, ha⟩ b ⟨q, hq, hb⟩
  · rintro h a ⟨r, hr, ha⟩ b ⟨q, hq, hb⟩
    exact h r hr a ha q hq b hb

end RulePlan
