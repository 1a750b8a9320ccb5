import RulePlan.Program.Ingest

/-!
# RulePlan.Proofs.Acceptance — what is known of a program once its rules are accepted

Planning never looks at a rule that was refused, so all later theory starts from what acceptance
gives. The checks of a rule come down to one declarative condition, `Rule.Safe`: few enough
elements, a positive literal, and no variable that a positive literal (or, in the head, the
assignment) does not bind. Reading adds that the pieces of an expression which are flagged as
variables are listed among its variables, and the running table of arities adds that every atom has
the arity recorded for its predicate. `Program.Accepted` collects these facts, and every program
that comes out of a source has them, in both modes.
-/

namespace RulePlan

/-- A sequence of two steps succeeds iff both do. -/
theorem bind_eq_ok_iff {ε α β : Type} {x : Except ε α} {f : α → Except ε β} {b : β} :
    (x >>= f) = .ok b ↔ ∃ a, x = .ok a ∧ f a = .ok b := by
  cases x with
  | error e => simp [bind, Except.bind]
  | ok a => simp [bind, Except.bind]

/-- A result is mapped to success iff there is one. -/
theorem map_eq_ok_iff {ε α β : Type} {x : Except ε α} {f : α → β} {b : β} :
    x.map f = .ok b ↔ ∃ a, x = .ok a ∧ f a = b := by
  cases x with
  | error e => simp [Except.map]
  | ok a => simp [Except.map]

/-! ## Names -/

theorem Expression.mem_distinct {l : List String} {x : String} :
    x ∈ Expression.distinct l ↔ x ∈ l := by
  have h : Expression.distinct l = Names.ofList l := rfl
  rw [h, Names.mem_ofList]

theorem Atom.mem_vars {a : Atom} {x : String} : x ∈ a.vars ↔ Argument.var x ∈ a.args := by
  unfold Atom.vars Atom.variablePlaces
  rw [Expression.mem_distinct, List.mem_filterMap]
  constructor
  · rintro ⟨arg, harg, hname⟩
    cases arg with
    | var y =>
      obtain rfl : y = x := by simpa [Argument.name?] using hname
      exact harg
    | const v => simp [Argument.name?] at hname
  · intro h
    exact ⟨.var x, h, rfl⟩

theorem Names.missing_eq_nil_iff {a b : List String} :
    Names.missing a b = [] ↔ ∀ x ∈ a, x ∈ b := by
  rw [List.eq_nil_iff_forall_not_mem]
  unfold Names.missing
  simp only [Names.mem_sorted, Names.mem_ofList, List.mem_filter, decide_eq_true_eq, not_and,
    Decidable.not_not]

/-! ## The checks of a rule, said declaratively -/

namespace Rule

/-- The condition under which a rule may stand in a program, arities aside. -/
structure Safe (r : Rule) : Prop where
  literals_le : r.literals.length ≤ 2
  assignments_le : r.assignments.length ≤ 1
  tests_le : r.tests.length ≤ 1
  not_both : ¬(r.assignments ≠ [] ∧ r.tests ≠ [])
  positive_ne : r.positive ≠ []
  negative_bound : ∀ a ∈ r.negative, ∀ x ∈ a.vars, x ∈ r.positiveVariables
  head_bound : ∀ x ∈ r.head.vars, x ∈ r.positiveVariables ∨ ∃ e, (x, e) ∈ r.assignments
  target_head : ∀ target e, (target, e) ∈ r.assignments → target ∈ r.head.vars
  assignment_bound : ∀ target e, (target, e) ∈ r.assignments →
    ∀ x ∈ e.vars, x ∈ r.positiveVariables
  test_bound : ∀ e ∈ r.tests, ∀ x ∈ e.vars, x ∈ r.positiveVariables

theorem checkStructure_eq_ok_iff {r : Rule} :
    r.checkStructure = .ok () ↔ r.literals.length ≤ 2 ∧ r.assignments.length ≤ 1
      ∧ r.tests.length ≤ 1 ∧ ¬(r.assignments ≠ [] ∧ r.tests ≠ []) := by
  unfold checkStructure
  simp only [← List.length_pos_iff]
  split
  · exact iff_of_false nofun (by omega)
  · split
    · exact iff_of_false nofun (by omega)
    · split
      · exact iff_of_false nofun (by omega)
      · split
        · exact iff_of_false nofun (by omega)
        · exact iff_of_true rfl (by omega)

/-- The literals bind variables for the head iff there is a positive one among at most two, and it
binds the variables of a negated one. What they bind are the variables of the positive ones. -/
theorem boundByLiterals_eq_ok_iff {ls : List Literal} {bound : List String} :
    boundByLiterals ls = .ok bound ↔
      ls.length ≤ 2
      ∧ (ls.filter (!·.negated)).map Literal.atom ≠ []
      ∧ (∀ a ∈ (ls.filter Literal.negated).map Literal.atom, ∀ x ∈ a.vars,
          x ∈ ((ls.filter (!·.negated)).map Literal.atom).flatMap Atom.vars)
      ∧ bound = ((ls.filter (!·.negated)).map Literal.atom).flatMap Atom.vars := by
  match ls with
  | [] => simp [boundByLiterals]
  | [l] =>
    cases hl : l.negated with
    | true => simp [boundByLiterals, hl]
    | false => simp [boundByLiterals, hl, @eq_comm _ bound]
  | [l, m] =>
    -- only the two mixed polarities compare variables
    cases hl : l.negated <;> cases hm : m.negated
    · simp [boundByLiterals, hl, hm, @eq_comm _ bound]
    · simp only [boundByLiterals, hl, hm]
      split
      case h_1 h =>
        have hsub := Names.missing_eq_nil_iff.1 h
        simpa [hl, hm, @eq_comm _ bound] using fun _ => hsub
      case h_2 h =>
        have hne := mt Names.missing_eq_nil_iff.2 h
        simp [hl, hm, hne]
    · simp only [boundByLiterals, hl, hm]
      split
      case h_1 h =>
        have hsub := Names.missing_eq_nil_iff.1 h
        simpa [hl, hm, @eq_comm _ bound] using fun _ => hsub
      case h_2 h =>
        have hne := mt Names.missing_eq_nil_iff.2 h
        simp [hl, hm, hne]
    · simp [boundByLiterals, hl, hm]
  | l :: m :: n :: rest => simp [boundByLiterals]

theorem mem_target_toList {r : Rule} {x : String} (h : r.assignments.length ≤ 1) :
    x ∈ (r.assignment?.map Prod.fst).toList ↔ ∃ e, (x, e) ∈ r.assignments := by
  unfold assignment?
  match hr : r.assignments with
  | [] => simp
  | [(target, e)] =>
    simp only [List.head?_cons, Option.map_some, Option.toList_some, List.mem_singleton,
      Prod.mk.injEq]
    constructor
    · rintro rfl
      exact ⟨e, rfl, rfl⟩
    · rintro ⟨_, rfl, _⟩
      rfl
  | _ :: _ :: _ => simp [hr] at h

theorem assignment?_eq_some_iff {r : Rule} (h : r.assignments.length ≤ 1)
    {te : String × Expression} : r.assignment? = some te ↔ te ∈ r.assignments := by
  unfold assignment?
  match hr : r.assignments with
  | [] => simp
  | [_] => simp [eq_comm]
  | _ :: _ :: _ => simp [hr] at h

theorem test?_eq_some_iff {r : Rule} (h : r.tests.length ≤ 1) {e : Expression} :
    r.test? = some e ↔ e ∈ r.tests := by
  unfold test?
  match hr : r.tests with
  | [] => simp
  | [_] => simp [eq_comm]
  | _ :: _ :: _ => simp [hr] at h

/-- The shape in which a check reports unbound variables: it passes iff there are none. -/
theorem refuse_missing_eq_ok_iff (needed bound : List String) (cause : List String → Refusal) :
    (match Names.missing needed bound with
      | [] => Except.ok ()
      | vars => Except.error (cause vars)) = .ok () ↔ ∀ x ∈ needed, x ∈ bound := by
  rw [← Names.missing_eq_nil_iff]
  split
  case h_1 h => exact iff_of_true rfl h
  case h_2 h => exact iff_of_false nofun h

theorem checkSafety_eq_ok_iff {r : Rule} (h : r.assignments.length ≤ 1) :
    r.checkSafety = .ok () ↔ r.literals.length ≤ 2 ∧ r.positive ≠ []
      ∧ (∀ a ∈ r.negative, ∀ x ∈ a.vars, x ∈ r.positiveVariables)
      ∧ ∀ x ∈ r.head.vars, x ∈ r.positiveVariables ∨ ∃ e, (x, e) ∈ r.assignments := by
  have hhead : ∀ bound x, x ∈ (r.assignment?.map Prod.fst).toList ++ bound ↔
      x ∈ bound ∨ ∃ e, (x, e) ∈ r.assignments := by
    intro bound x
    rw [List.mem_append, mem_target_toList h, or_comm]
  simp only [← hhead]
  refine Iff.trans bind_eq_ok_iff ?_
  constructor
  · rintro ⟨bound, hbound, hok⟩
    obtain ⟨hlen, hpos, hneg, rfl⟩ := boundByLiterals_eq_ok_iff.1 hbound
    exact ⟨hlen, hpos, hneg, (refuse_missing_eq_ok_iff _ _ .headUnbound).1 hok⟩
  · rintro ⟨hlen, hpos, hneg, hsub⟩
    exact ⟨r.positiveVariables, boundByLiterals_eq_ok_iff.2 ⟨hlen, hpos, hneg, rfl⟩,
      (refuse_missing_eq_ok_iff _ _ .headUnbound).2 hsub⟩

theorem checkAssignment_eq_ok_iff {r : Rule} (h : r.assignments.length ≤ 1) :
    r.checkAssignment = .ok () ↔ ∀ target e, (target, e) ∈ r.assignments →
      target ∈ r.head.vars ∧ ∀ x ∈ e.vars, x ∈ r.positiveVariables := by
  simp only [← assignment?_eq_some_iff h]
  unfold checkAssignment
  cases r.assignment? with
  | none => simp
  | some te =>
    obtain ⟨target, e⟩ := te
    by_cases ht : target ∈ r.head.vars
    · simp only [ht, not_true_eq_false, if_false]
      refine Iff.trans (refuse_missing_eq_ok_iff _ _ (.assignmentUnbound target)) ?_
      constructor
      · rintro hsub _ _ ⟨rfl, rfl⟩
        exact ⟨ht, hsub⟩
      · intro hall
        exact (hall target e rfl).2
    · simp only [ht, not_false_eq_true, if_true]
      exact iff_of_false nofun fun hall => ht (hall target e rfl).1

theorem checkTest_eq_ok_iff {r : Rule} (h : r.tests.length ≤ 1) :
    r.checkTest = .ok () ↔ ∀ e ∈ r.tests, ∀ x ∈ e.vars, x ∈ r.positiveVariables := by
  simp only [← test?_eq_some_iff h]
  unfold checkTest
  cases r.test? with
  | none => simp
  | some e =>
    refine Iff.trans (refuse_missing_eq_ok_iff _ _ (.testUnbound e.source)) ?_
    simp

/-- The checks together: a rule passes iff it is safe and its atoms fit the known arities. -/
theorem check_eq_ok_iff {known fixed : List ArityEntry} {r : Rule} :
    r.check known = .ok fixed ↔ r.Safe ∧ newArities known r.line [] r.atoms = .ok fixed := by
  unfold check
  simp only [bind_eq_ok_iff]
  constructor
  · rintro ⟨⟨⟩, hs, fixed', ha, ⟨⟩, hsafe, ⟨⟩, hasg, ⟨⟩, htest, ⟨rfl⟩⟩
    obtain ⟨hlen, hone, htests, hboth⟩ := checkStructure_eq_ok_iff.1 hs
    obtain ⟨-, hpos, hneg, hhead⟩ := (checkSafety_eq_ok_iff hone).1 hsafe
    have hassign := (checkAssignment_eq_ok_iff hone).1 hasg
    refine ⟨?_, ha⟩
    exact {
      literals_le := hlen
      assignments_le := hone
      tests_le := htests
      not_both := hboth
      positive_ne := hpos
      negative_bound := hneg
      head_bound := hhead
      target_head := fun target e he => (hassign target e he).1
      assignment_bound := fun target e he => (hassign target e he).2
      test_bound := (checkTest_eq_ok_iff htests).1 htest }
  · rintro ⟨hr, ha⟩
    have hstruct := checkStructure_eq_ok_iff.2
      ⟨hr.literals_le, hr.assignments_le, hr.tests_le, hr.not_both⟩
    have hsafe := (checkSafety_eq_ok_iff hr.assignments_le).2
      ⟨hr.literals_le, hr.positive_ne, hr.negative_bound, hr.head_bound⟩
    have hassign := (checkAssignment_eq_ok_iff hr.assignments_le).2
      fun target e he => ⟨hr.target_head target e he, hr.assignment_bound target e he⟩
    have htest := (checkTest_eq_ok_iff hr.tests_le).2 hr.test_bound
    exact ⟨(), hstruct, fixed, ha, (), hsafe, (), hassign, (), htest, rfl⟩

end Rule

/-! ## Recorded arities -/

/-- The arity that a list of entries records for a predicate. -/
def arityIn (entries : List ArityEntry) (predicate : String) : Option Nat :=
  (entries.find? (·.predicate == predicate)).map ArityEntry.arity

theorem arityIn_append (l m : List ArityEntry) (name : String) :
    arityIn (l ++ m) name = (arityIn l name).or (arityIn m name) := by
  unfold arityIn
  rw [List.find?_append]
  cases l.find? (·.predicate == name) <;> simp

/-- An entry is never displaced by later ones. -/
theorem arityIn_append_of_eq_some {l : List ArityEntry} {name : String} {n : Nat}
    (h : arityIn l name = some n) (m : List ArityEntry) : arityIn (l ++ m) name = some n := by
  rw [arityIn_append, h, Option.some_or]

/-- Checking atoms extends the arities fixed so far, and afterwards every atom has the arity that
the whole table records for its predicate. -/
theorem Rule.arityIn_of_newArities {known : List ArityEntry} {line : Int} {atoms : List Atom} :
    ∀ {fixed out : List ArityEntry}, Rule.newArities known line fixed atoms = .ok out →
      (∃ new, out = fixed ++ new) ∧
        ∀ a ∈ atoms, arityIn (known ++ out) a.predicate = some a.arity := by
  induction atoms with
  | nil =>
    intro fixed out h
    obtain rfl : fixed = out := by simpa [Rule.newArities] using h
    exact ⟨⟨[], by simp⟩, by simp⟩
  | cons a atoms ih =>
    -- in every branch that goes on, the table after `a` has the arity of `a`
    have extend : ∀ {fixed out : List ArityEntry},
        Rule.newArities known line fixed atoms = .ok out →
        arityIn (known ++ fixed) a.predicate = some a.arity →
        (∃ new, out = fixed ++ new) ∧
          ∀ b ∈ a :: atoms, arityIn (known ++ out) b.predicate = some b.arity := by
      intro fixed out h ha
      obtain ⟨⟨new, rfl⟩, hall⟩ := ih h
      refine ⟨⟨new, rfl⟩, ?_⟩
      intro b hb
      rcases List.mem_cons.1 hb with rfl | hb
      · rw [← List.append_assoc]
        exact arityIn_append_of_eq_some ha new
      · exact hall b hb
    intro fixed out h
    unfold Rule.newArities at h
    split at h
    case h_1 e he =>
      split at h
      case isTrue harity =>
        refine extend h (arityIn_append_of_eq_some ?_ fixed)
        simp [arityIn, he, harity]
      case isFalse => cases h
    case h_2 hknown =>
      split at h
      case h_1 e he =>
        split at h
        case isTrue harity =>
          refine extend h ?_
          simp [arityIn, List.find?_append, hknown, he, harity]
        case isFalse => cases h
      case h_2 hfixed =>
        obtain ⟨⟨new, rfl⟩, hall⟩ := extend h
          (by simp [arityIn, List.find?_append, hknown, hfixed])
        exact ⟨⟨_, List.append_assoc _ _ _⟩, hall⟩

/-! ## Flagged pieces -/

/-- Every piece that is flagged as a variable is one of the variables of the expression. -/
def Expression.Flagged (e : Expression) : Prop :=
  ∀ p ∈ e.pieces, p.isVariable = true → p.text ∈ e.vars

theorem Expression.flagged_of_ofTokens? {tokens : List Token} {e : Expression}
    (h : Expression.ofTokens? tokens = some e) : e.Flagged := by
  unfold Expression.ofTokens? at h
  obtain ⟨reads, -, h⟩ := Option.bind_eq_some_iff.1 h
  obtain rfl := Option.some.inj h
  intro p hp hvar
  rw [Expression.mem_distinct]
  exact List.mem_map.2 ⟨p, List.mem_filter.2 ⟨hp, hvar⟩, rfl⟩

/-- The expression of an element, if it has one, has its variables flagged. -/
def Element.Flagged : Element → Prop
  | .literal _ => True
  | .assign _ e => e.Flagged
  | .test e => e.Flagged

namespace Rule

theorem flagged_of_readExpression {tokens : List Token} {e : Expression}
    (h : readExpression tokens = .ok e) : e.Flagged := by
  unfold readExpression at h
  split at h
  case h_1 e' he =>
    obtain rfl : e' = e := by simpa using h
    exact Expression.flagged_of_ofTokens? he
  case h_2 => cases h

theorem flagged_of_readFormula {tokens : List Token} {e : Element}
    (h : readFormula tokens = .ok e) : e.Flagged := by
  have mapped : ∀ {ts : List Token} (f : Expression → Element),
      (∀ x : Expression, x.Flagged → (f x).Flagged) →
      (readExpression ts).map f = .ok e → e.Flagged := by
    intro ts f hf hmap
    obtain ⟨x, hread, rfl⟩ := map_eq_ok_iff.1 hmap
    exact hf x (flagged_of_readExpression hread)
  unfold readFormula at h
  split at h
  · cases h
  case h_2 t ts =>
    split at h
    · cases h
    · split at h
      · split at h
        · cases h
        · exact mapped (.assign t.value) (fun _ hx => hx) h
      · split at h
        · exact mapped .test (fun _ hx => hx) h
        · cases h

theorem flagged_of_readElement {fresh fresh' : Nat} {tokens : List Token} {e : Element}
    (h : readElement fresh tokens = .ok (e, fresh')) : e.Flagged := by
  unfold readElement at h
  split at h
  · obtain ⟨⟨atom, f⟩, -, h⟩ := bind_eq_ok_iff.1 h
    obtain ⟨rfl, -⟩ : Element.literal _ = e ∧ _ := by simpa using h
    trivial
  · obtain ⟨e', he', h⟩ := bind_eq_ok_iff.1 h
    obtain ⟨rfl, -⟩ : e' = e ∧ fresh = fresh' := by simpa using h
    exact flagged_of_readFormula he'

theorem flagged_of_readBody {segments : List (List Token)} :
    ∀ {fresh : Nat} {body : List Element}, (readBody fresh segments).result = .ok body →
      ∀ e ∈ body, e.Flagged := by
  induction segments with
  | nil =>
    intro fresh body h
    obtain rfl : [] = body := by simpa [readBody] using h
    simp
  | cons s ss ih =>
    intro fresh body h
    unfold readBody at h
    split at h
    case h_1 => cases h
    case h_2 e fresh' he =>
      obtain ⟨more, hmore, rfl⟩ := map_eq_ok_iff.1 h
      intro x hx
      rcases List.mem_cons.1 hx with rfl | hx
      · exact flagged_of_readElement he
      · exact ih hmore x hx

theorem flagged_of_parse {symbols : SymbolTable} {line : Int} {text : String} {r : Rule}
    (h : (parse symbols line text).1 = .ok r) : ∀ e ∈ r.body, e.Flagged := by
  change (read line text).result = .ok r at h
  unfold read at h
  simp only at h
  split at h
  · cases h
  case h_2 tokens htokens =>
    obtain ⟨⟨head, body⟩, hread, rfl⟩ := map_eq_ok_iff.1 h
    unfold readTokens at hread
    split at hread
    · cases hread
    · simp only at hread
      split at hread
      · cases hread
      · split at hread
        · cases hread
        · obtain ⟨elements, helements, hread⟩ := bind_eq_ok_iff.1 hread
          obtain ⟨-, -, hread⟩ := bind_eq_ok_iff.1 hread
          obtain ⟨-, rfl⟩ : _ ∧ elements = body := by simpa using hread
          exact flagged_of_readBody helements

end Rule

/-! ## Reading a source -/

namespace Intake

/-- What one line can do: it is refused and leaves rules and arities alone, or its rule was read,
passed the checks and is added with the arities it fixes. -/
theorem step_cases (file : String) (s : Intake) (l : SourceLine) :
    ((step file s l).1.rules = s.rules ∧ (step file s l).1.arities = s.arities) ∨
      ∃ rule fixed, (Rule.parse s.symbols l.number l.text).1 = .ok rule
        ∧ rule.check s.arities = .ok fixed
        ∧ (step file s l).1.rules = s.rules ++ [rule]
        ∧ (step file s l).1.arities = s.arities ++ fixed := by
  cases hparse : (Rule.parse s.symbols l.number l.text).1 with
  | error fault =>
    left
    simp [step, hparse]
  | ok rule =>
    cases hcheck : rule.check s.arities with
    | error cause =>
      left
      simp [step, hparse, hcheck]
    | ok fixed =>
      right
      refine ⟨rule, fixed, rfl, hcheck, ?_, ?_⟩ <;> simp [step, hparse, hcheck]

/-- A refused line adds no rule and fixes no arity. -/
theorem step_of_refused {file : String} {s : Intake} {l : SourceLine} {d : Diagnostic}
    (h : (step file s l).2 = .refused d) :
    (step file s l).1.rules = s.rules ∧ (step file s l).1.arities = s.arities := by
  cases hparse : (Rule.parse s.symbols l.number l.text).1 with
  | error fault => simp [step, hparse]
  | ok rule =>
    cases hcheck : rule.check s.arities with
    | error cause => simp [step, hparse, hcheck]
    | ok fixed => simp [step, hparse, hcheck] at h

/-- Whatever every line preserves, reading preserves. -/
theorem run_preserves {P : Intake → Prop} {file : String} {mode : Mode}
    (hstep : ∀ s l, P s → P (step file s l).1) (lines : List SourceLine) :
    ∀ s, P s → P (run file mode s lines).1 := by
  induction lines with
  | nil =>
    intro s hs
    exact hs
  | cons l ls ih =>
    intro s hs
    have hnext := hstep s l hs
    unfold run
    split
    case h_1 s' d heq =>
      rw [heq] at hnext
      cases mode with
      | failFast => exact hnext
      | accumulate => exact ih s' hnext
    case h_2 s' r heq =>
      rw [heq] at hnext
      exact ih s' hnext

/-- The invariant of reading: every rule taken in is safe, has its variables flagged, and has the
recorded arities. -/
structure Sound (s : Intake) : Prop where
  safe : ∀ r ∈ s.rules, r.Safe
  flagged : ∀ r ∈ s.rules, ∀ e ∈ r.body, e.Flagged
  arity : ∀ r ∈ s.rules, ∀ a ∈ r.atoms, arityIn s.arities a.predicate = some a.arity

theorem sound_start : start.Sound := ⟨nofun, nofun, nofun⟩

theorem sound_step {file : String} {s : Intake} {l : SourceLine} (hs : s.Sound) :
    (step file s l).1.Sound := by
  rcases step_cases file s l with
    ⟨hrules, harities⟩ | ⟨rule, fixed, hparse, hcheck, hrules, harities⟩
  · constructor <;> rw [hrules]
    · exact hs.safe
    · exact hs.flagged
    · rw [harities]
      exact hs.arity
  · obtain ⟨hsafe, hfixed⟩ := Rule.check_eq_ok_iff.1 hcheck
    have hnew := (Rule.arityIn_of_newArities hfixed).2
    constructor <;> simp only [hrules, harities, List.mem_append, List.mem_singleton]
    · rintro r (hr | rfl)
      · exact hs.safe r hr
      · exact hsafe
    · rintro r (hr | rfl)
      · exact hs.flagged r hr
      · exact Rule.flagged_of_parse hparse
    · rintro r (hr | rfl) a ha
      · exact arityIn_append_of_eq_some (hs.arity r hr a ha) fixed
      · exact hnew a ha

end Intake

namespace Program

/-- What planning may rely on in a program. -/
structure Accepted (p : Program) : Prop where
  safe : ∀ r ∈ p.rules, r.Safe
  flagged : ∀ r ∈ p.rules, ∀ e ∈ r.body, e.Flagged
  arity : ∀ r ∈ p.rules, ∀ a ∈ r.atoms, p.arity? a.predicate = some (a.arity : Int)
  graph : p.graph = graphOf p.rules
  negated : ∀ r ∈ p.rules, ∀ a ∈ r.negative, a.predicate ∈ p.negated

theorem lookup_arities (entries : List ArityEntry) (name : String) :
    (entries.map fun e => (e.predicate, (e.arity : Int))).lookup name
      = (arityIn entries name).map Int.ofNat := by
  unfold arityIn
  induction entries with
  | nil => rfl
  | cons e entries ih =>
    by_cases h : e.predicate = name
    · simp [h]
    · have hname : (name == e.predicate) = false := beq_eq_false_iff_ne.2 (Ne.symm h)
      have hentry : (e.predicate == name) = false := beq_eq_false_iff_ne.2 h
      rw [List.map_cons, List.lookup_cons, hname, List.find?_cons, hentry]
      exact ih

theorem accepted_of_sound {s : Intake} (hs : s.Sound) (file : String) :
    (s.program file).Accepted where
  safe := hs.safe
  flagged := hs.flagged
  arity := by
    intro r hr a ha
    change (s.arities.map fun e => (e.predicate, (e.arity : Int))).lookup a.predicate = _
    rw [lookup_arities, hs.arity r hr a ha]
    rfl
  graph := rfl
  negated := by
    intro r hr a ha
    exact Names.mem_ofList.2 (List.mem_flatMap.2 ⟨r, hr, List.mem_map.2 ⟨a, ha, rfl⟩⟩)

theorem accepted_of_ofLines {file : String} {mode : Mode} {lines : List SourceLine} {p : Program}
    (h : (Ingestion.ofLines file mode lines).result = .ok p) : p.Accepted := by
  unfold Ingestion.ofLines at h
  simp only at h
  split at h
  · obtain rfl : (Intake.run file mode .start lines).1.program file = p := by simpa using h
    have hrun : (Intake.run file mode .start lines).1.Sound :=
      Intake.run_preserves (fun _ _ => Intake.sound_step) lines _ Intake.sound_start
    exact accepted_of_sound hrun file
  · cases h

theorem accepted_of_ofSource {file source : String} {mode : Mode} {p : Program}
    (h : ofSource file source mode = .ok p) : p.Accepted :=
  accepted_of_ofLines h

end Program

end RulePlan
