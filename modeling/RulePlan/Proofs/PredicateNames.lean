import RulePlan.Proofs.DiagnosticModes
import RulePlan.Proofs.RenderedRule
import RulePlan.Proofs.SourceDiscipline

/-!
# RulePlan.Proofs.PredicateNames — what a program knows of its predicates

While no line is refused, each line adds one rule, the names of its atoms and the arities they fix,
and nothing else. A program that comes out of a source thus has the rules of its lines in order, its
symbol table holds the predicates of its rules and no other names, and its arities are those of its
atoms. An output that is requested from a program is known iff some atom has that predicate.
-/

namespace RulePlan

namespace SymbolTable

theorem mem_names_intern_iff {t : SymbolTable} {name x : String} :
    x ∈ (t.intern name).names ↔ x ∈ t.names ∨ x = name := by
  unfold intern
  split
  case isTrue hmem =>
    constructor
    · exact Or.inl
    · rintro (hx | rfl)
      · exact hx
      · exact hmem
  case isFalse => simp

theorem mem_names_internAll_iff {names : List String} {t : SymbolTable} {x : String} :
    x ∈ (t.internAll names).names ↔ x ∈ t.names ∨ x ∈ names := by
  induction names generalizing t with
  | nil => simp [internAll]
  | cons name names ih =>
    show x ∈ ((t.intern name).internAll names).names ↔ _
    rw [ih, mem_names_intern_iff, List.mem_cons, or_assoc]

end SymbolTable

/-- The predicates that a rule mentions, its head first. -/
def Rule.predicates (r : Rule) : List String := r.atoms.map Atom.predicate

theorem Rule.names_read {l : SourceLine} {r : Rule} (h : l.Reads r) :
    (Rule.read l.number l.text).names = r.predicates := by
  rw [Rule.names_of_read h, Rule.predicates, Rule.atoms, List.map_cons, List.map_map]
  rfl

/-- Checking atoms fixes arities of these atoms only. -/
theorem Rule.mem_newArities {known : List ArityEntry} {line : Int} {atoms : List Atom} :
    ∀ {fixed out : List ArityEntry}, Rule.newArities known line fixed atoms = .ok out →
      ∀ e ∈ out, e ∈ fixed ∨ ∃ a ∈ atoms, a.predicate = e.predicate ∧ a.arity = e.arity := by
  induction atoms with
  | nil =>
    intro fixed out h e he
    obtain rfl : fixed = out := by simpa [Rule.newArities] using h
    exact .inl he
  | cons a atoms ih =>
    have later : ∀ {fixed out : List ArityEntry}, Rule.newArities known line fixed atoms = .ok out →
        ∀ e ∈ out,
          e ∈ fixed ∨ ∃ b ∈ a :: atoms, b.predicate = e.predicate ∧ b.arity = e.arity := by
      intro fixed out h e he
      rcases ih h e he with hfixed | ⟨b, hb, heq⟩
      · exact .inl hfixed
      · exact .inr ⟨b, List.mem_cons_of_mem a hb, heq⟩
    intro fixed out h e he
    unfold Rule.newArities at h
    split at h
    · split at h
      · exact later h e he
      · cases h
    · split at h
      · split at h
        · exact later h e he
        · cases h
      · rcases later h e he with hfixed | hatom
        · rcases List.mem_append.1 hfixed with hfixed | hnew
          · exact .inl hfixed
          · rw [List.mem_singleton] at hnew
            exact .inr ⟨a, List.mem_cons_self, by rw [hnew], by rw [hnew]⟩
        · exact .inr hatom

/-! ## Lines that are accepted -/

namespace Intake

variable {file : String} {mode : Mode}

/-- What an accepted line adds. -/
theorem step_of_accepted {s : Intake} {l : SourceLine} {r : Rule}
    (h : (step file s l).2 = .accepted r) :
    ∃ fixed, l.Reads r ∧ r.check s.arities = .ok fixed
      ∧ (step file s l).1
        = ⟨s.symbols.internAll r.predicates, s.arities ++ fixed, s.rules ++ [r]⟩ := by
  cases hread : (Rule.parse s.symbols l.number l.text).1 with
  | error fault => simp [step, hread] at h
  | ok rule =>
    cases hcheck : rule.check s.arities with
    | error cause => simp [step, hread, hcheck] at h
    | ok fixed =>
      obtain rfl : rule = r := by simpa [step, hread, hcheck] using h
      have hreads : l.Reads rule := hread
      refine ⟨fixed, hreads, hcheck, ?_⟩
      rw [← Rule.names_read hreads]
      simp only [step, hread, hcheck]
      rfl

/-- What every accepted line preserves, a reading without refusals preserves. -/
theorem run_preserves_of_accepted {P : Intake → List SourceLine → Prop}
    (hstep : ∀ s read l r, P s read → (step file s l).2 = .accepted r →
      P (step file s l).1 (read ++ [l]))
    (ls : List SourceLine) :
    ∀ s read, P s read → (run file mode s ls).2.filterMap Verdict.diagnostic? = [] →
      P (run file mode s ls).1 (read ++ ls) := by
  induction ls with
  | nil =>
    intro s read hs _
    rw [List.append_nil]
    exact hs
  | cons l ls ih =>
    intro s read hs hnone
    rw [run] at hnone ⊢
    split at hnone
    case h_1 s' d heq => cases mode <;> cases hnone
    case h_2 s' r heq =>
      have hnext := hstep s read l r hs (by rw [heq])
      rw [heq] at hnext
      rw [show read ++ l :: ls = read ++ [l] ++ ls by simp]
      exact ih s' _ hnext hnone

/-- What is known after some lines, none of them refused: their rules, the predicates of these and
the arities of their atoms. -/
structure Knows (s : Intake) (lines : List SourceLine) : Prop where
  rules : s.rules = SourceLine.rules lines
  symbols : ∀ x, x ∈ s.symbols.names ↔ ∃ r ∈ s.rules, x ∈ r.predicates
  arities : ∀ e ∈ s.arities, ∃ r ∈ s.rules, ∃ a ∈ r.atoms,
    a.predicate = e.predicate ∧ a.arity = e.arity

theorem knows_start : start.Knows [] := ⟨rfl, by simp [start, SymbolTable.empty], nofun⟩

theorem line_of_reads {l : SourceLine} {r : Rule} (h : l.Reads r) : r.line = l.number := by
  obtain ⟨form, -, rfl⟩ := Rule.read_eq_ok_iff.1 h
  rfl

theorem knows_step {s : Intake} {read : List SourceLine} {l : SourceLine} {r : Rule}
    (hs : s.Knows read) (h : (step file s l).2 = .accepted r) :
    (step file s l).1.Knows (read ++ [l]) := by
  obtain ⟨fixed, hreads, hcheck, heq⟩ := step_of_accepted h
  obtain ⟨-, hfixed⟩ := Rule.check_eq_ok_iff.1 hcheck
  rw [heq]
  refine ⟨?_, ?_, ?_⟩
  · show s.rules ++ [r] = SourceLine.rules (read ++ [l])
    rw [hs.rules]
    unfold SourceLine.rules
    rw [List.filterMap_append, List.filterMap_cons,
      show (Rule.read l.number l.text).result = .ok r from hreads]
    rfl
  · intro x
    show x ∈ (s.symbols.internAll r.predicates).names ↔ ∃ q ∈ s.rules ++ [r], x ∈ q.predicates
    rw [SymbolTable.mem_names_internAll_iff, hs.symbols]
    simp [or_and_right, exists_or]
  · intro e he
    rcases List.mem_append.1 he with hold | hnew
    · obtain ⟨q, hq, hatom⟩ := hs.arities e hold
      exact ⟨q, List.mem_append_left _ hq, hatom⟩
    · rcases Rule.mem_newArities hfixed e hnew with hnone | hatom
      · exact absurd hnone List.not_mem_nil
      · exact ⟨r, List.mem_append_right _ List.mem_cons_self, hatom⟩

theorem knows_run {lines : List SourceLine}
    (h : (run file mode start lines).2.filterMap Verdict.diagnostic? = []) :
    (run file mode start lines).1.Knows lines :=
  run_preserves_of_accepted (P := Knows) (fun _ _ _ _ hs hl => knows_step hs hl) lines start []
    knows_start h

end Intake

/-! ## Programs -/

namespace Program

variable {file source : String} {mode : Mode} {p : Program}

/-- Some atom of a rule has the predicate. -/
def Mentions (p : Program) (x : String) : Prop := ∃ r ∈ p.rules, x ∈ r.predicates

/-- A program that comes out of a source is that of an intake which knows all its lines. -/
theorem exists_intake_of_ofSource (h : ofSource file source mode = .ok p) :
    ∃ s : Intake, s.Knows (SourceLine.ofSource source) ∧ s.program file = p := by
  obtain ⟨hnone, hp⟩ := Ingestion.result_eq_ok_iff.1
    (show (Ingestion.ofLines file mode (SourceLine.ofSource source)).result = _ from h)
  exact ⟨_, Intake.knows_run hnone, hp⟩

theorem file_of_ofSource (h : ofSource file source mode = .ok p) : p.file = file := by
  obtain ⟨s, -, rfl⟩ := exists_intake_of_ofSource h
  rfl

theorem rules_of_ofSource (h : ofSource file source mode = .ok p) :
    p.rules = SourceLine.rules (SourceLine.ofSource source) := by
  obtain ⟨s, hs, rfl⟩ := exists_intake_of_ofSource h
  exact hs.rules

/-- The symbol table holds exactly the predicates of the rules. -/
theorem contains_symbols_iff (h : ofSource file source mode = .ok p) {x : String} :
    p.symbols.contains x = true ↔ p.Mentions x := by
  obtain ⟨s, hs, rfl⟩ := exists_intake_of_ofSource h
  unfold SymbolTable.contains
  rw [List.contains_iff_mem]
  exact hs.symbols x

/-- The recorded arities are exactly those of the atoms. -/
theorem arity?_eq_some_iff (h : ofSource file source mode = .ok p) {x : String} {n : Int} :
    p.arity? x = some n ↔ ∃ r ∈ p.rules, ∃ a ∈ r.atoms, a.predicate = x ∧ (a.arity : Int) = n := by
  have hacc := accepted_of_ofSource h
  constructor
  · intro hn
    obtain ⟨s, hs, rfl⟩ := exists_intake_of_ofSource h
    have hlookup : (arityIn s.arities x).map Int.ofNat = some n :=
      (lookup_arities s.arities x).symm.trans hn
    obtain ⟨m, hm, rfl⟩ := Option.map_eq_some_iff.1 hlookup
    obtain ⟨e, hfind, rfl⟩ := Option.map_eq_some_iff.1 hm
    obtain ⟨r, hr, a, ha, hpredicate, harity⟩ := hs.arities e (List.mem_of_find?_eq_some hfind)
    have hx : e.predicate = x := by simpa using List.find?_some hfind
    exact ⟨r, hr, a, ha, hpredicate.trans hx, congrArg Int.ofNat harity⟩
  · rintro ⟨r, hr, a, ha, rfl, rfl⟩
    exact hacc.arity r hr a ha

end Program

end RulePlan
