import RulePlan.Proofs.Reordering

/-!
# RulePlan.Proofs.ProgramTables — the tables of a program agree with its rules

A program carries five tables beside its rules: symbols, arities, the dependency graph, and the sets
of defined, read and negated predicates. They are filled at different times, the symbols while a
line is read, the arities while it is checked, the rest when all lines are in. Every later stage
looks predicates up in them, so each is pinned down here in terms of the rules alone: symbols are
numbered by first appearance in the predicates of the rules, head before body, and the others are
what the atoms, edges and polarities of the rules say.
-/

namespace RulePlan

/-! ## First appearance -/

namespace Names

theorem ofList_append_singleton (l : List String) (x : String) :
    ofList (l ++ [x]) = add (ofList l) x := by
  unfold ofList addAll
  rw [List.foldl_append]
  rfl

/-- Distinct names are listed in the order in which they first appear. -/
theorem idxOf_ofList_lt_iff {l : List String} {x y : String} (hx : x ∈ l) (hy : y ∈ l) :
    (ofList l).idxOf x < (ofList l).idxOf y ↔ l.idxOf x < l.idxOf y := by
  induction l using List.reverseRecOn with
  | nil => exact absurd hx List.not_mem_nil
  | append_singleton l z ih =>
    rw [ofList_append_singleton]
    by_cases hz : z ∈ l
    · -- a name that has appeared changes neither list
      have hold : ∀ {w}, w ∈ l ++ [z] → w ∈ l := by
        intro w hw
        rcases List.mem_append.1 hw with hw | hw
        · exact hw
        · exact List.mem_singleton.1 hw ▸ hz
      have hadd : add (ofList l) z = ofList l := if_pos (mem_ofList.2 hz)
      rw [hadd, List.idxOf_append_of_mem (hold hx), List.idxOf_append_of_mem (hold hy)]
      exact ih (hold hx) (hold hy)
    · have hnew : z ∉ ofList l := fun h => hz (mem_ofList.1 h)
      have hadd : add (ofList l) z = ofList l ++ [z] := if_neg hnew
      have hplace : ∀ {m : List String} {w}, w ∈ m → (m ++ [z]).idxOf w < m.length := by
        intro m w hw
        rw [List.idxOf_append_of_mem hw]
        exact List.idxOf_lt_length_of_mem hw
      have hlast : ∀ {m : List String}, z ∉ m → (m ++ [z]).idxOf z = m.length := by
        intro m hm
        rw [List.idxOf_append_of_notMem hm, List.idxOf_cons_self, Nat.add_zero]
      rw [hadd]
      rcases List.mem_append.1 hx with hxl | hxz <;> rcases List.mem_append.1 hy with hyl | hyz
      · rw [List.idxOf_append_of_mem (mem_ofList.2 hxl), List.idxOf_append_of_mem hxl,
          List.idxOf_append_of_mem (mem_ofList.2 hyl), List.idxOf_append_of_mem hyl]
        exact ih hxl hyl
      · obtain rfl := List.mem_singleton.1 hyz
        rw [hlast hnew, hlast hz]
        exact iff_of_true (hplace (mem_ofList.2 hxl)) (hplace hxl)
      · obtain rfl := List.mem_singleton.1 hxz
        rw [hlast hnew, hlast hz]
        exact iff_of_false (hplace (mem_ofList.2 hyl)).asymm (hplace hyl).asymm
      · obtain rfl := List.mem_singleton.1 hxz
        obtain rfl := List.mem_singleton.1 hyz
        exact iff_of_false (lt_irrefl _) (lt_irrefl _)

end Names

namespace SymbolTable

theorem names_intern (t : SymbolTable) (name : String) :
    (t.intern name).names = Names.add t.names name := by
  unfold intern Names.add
  split <;> rfl

theorem names_internAll (t : SymbolTable) (names : List String) :
    (t.internAll names).names = Names.addAll t.names names := by
  induction names generalizing t with
  | nil => rfl
  | cons name names ih =>
    show ((t.intern name).internAll names).names = Names.addAll (Names.add t.names name) names
    rw [ih, names_intern]

theorem internAll_append (t : SymbolTable) (names more : List String) :
    t.internAll (names ++ more) = (t.internAll names).internAll more :=
  List.foldl_append

variable {t : SymbolTable} {x y : String} {m n : Nat}

theorem id?_eq_some_iff : t.id? x = some n ↔ x ∈ t.names ∧ n = t.names.idxOf x + 1 := by
  unfold id?
  rw [Option.map_eq_some_iff]
  constructor
  · rintro ⟨i, hi, rfl⟩
    have hmem : x ∈ t.names := by
      by_contra hx
      rw [List.idxOf?_eq_none_iff.2 hx] at hi
      cases hi
    exact ⟨hmem, by rw [List.idxOf_eq_getD_idxOf?, hi, Option.getD_some]⟩
  · rintro ⟨hmem, rfl⟩
    refine ⟨t.names.idxOf x, ?_, rfl⟩
    obtain ⟨i, hi⟩ : ∃ i, t.names.idxOf? x = some i := by
      rw [← Option.isSome_iff_exists, Option.isSome_iff_ne_none, Ne, List.idxOf?_eq_none_iff]
      exact not_not.2 hmem
    rw [hi, List.idxOf_eq_getD_idxOf?, hi, Option.getD_some]

/-- Ids run from one to the number of names. -/
theorem exists_id?_iff : (∃ x, t.id? x = some n) ↔ 1 ≤ n ∧ n ≤ t.size := by
  constructor
  · rintro ⟨x, hx⟩
    obtain ⟨hmem, rfl⟩ := id?_eq_some_iff.1 hx
    exact ⟨Nat.le_add_left 1 _, List.idxOf_lt_length_of_mem hmem⟩
  · rintro ⟨hpos, hle⟩
    have hlt : n - 1 < t.names.length := by
      have hsize : n ≤ t.names.length := hle
      omega
    refine ⟨t.names[n - 1], id?_eq_some_iff.2 ⟨List.getElem_mem hlt, ?_⟩⟩
    rw [t.nodup.idxOf_getElem]
    omega

theorem eq_of_id? (hx : t.id? x = some n) (hy : t.id? y = some n) : x = y := by
  obtain ⟨hxmem, rfl⟩ := id?_eq_some_iff.1 hx
  obtain ⟨-, hidx⟩ := id?_eq_some_iff.1 hy
  exact (List.idxOf_inj hxmem).1 (Nat.succ.inj hidx)

/-- A table that starts empty numbers names by first appearance. -/
theorem id?_internAll_lt_iff {names : List String} (hx : (empty.internAll names).id? x = some m)
    (hy : (empty.internAll names).id? y = some n) :
    m < n ↔ names.idxOf x < names.idxOf y := by
  have hnames : (empty.internAll names).names = Names.ofList names := names_internAll empty names
  obtain ⟨hxmem, rfl⟩ := id?_eq_some_iff.1 hx
  obtain ⟨hymem, rfl⟩ := id?_eq_some_iff.1 hy
  rw [hnames] at hxmem hymem ⊢
  rw [Nat.add_lt_add_iff_right]
  exact Names.idxOf_ofList_lt_iff (Names.mem_ofList.1 hxmem) (Names.mem_ofList.1 hymem)

end SymbolTable

/-! ## Reading -/

namespace Intake

/-- After lines that were all accepted there is one rule for each, in order, and the symbols are the
predicates of these rules, interned one after the other. -/
structure Interns (s : Intake) (lines : List SourceLine) : Prop where
  rules : List.Forall₂ SourceLine.Reads lines s.rules
  symbols : s.symbols = SymbolTable.empty.internAll (s.rules.flatMap Rule.predicates)

theorem interns_step {file : String} {s : Intake} {read : List SourceLine} {l : SourceLine}
    {r : Rule} (hs : s.Interns read) (h : (step file s l).2 = .accepted r) :
    (step file s l).1.Interns (read ++ [l]) := by
  obtain ⟨fixed, hreads, -, heq⟩ := step_of_accepted h
  rw [heq]
  refine ⟨List.rel_append hs.rules (.cons hreads .nil), ?_⟩
  show s.symbols.internAll r.predicates
    = SymbolTable.empty.internAll ((s.rules ++ [r]).flatMap Rule.predicates)
  rw [List.flatMap_append, List.flatMap_singleton, SymbolTable.internAll_append, ← hs.symbols]

end Intake

/-! ## Programs -/

namespace Program

/-- The predicates of the rules at all their occurrences: line by line, head before body. -/
def occurrences (p : Program) : List String := p.rules.flatMap Rule.predicates

/-- What the tables of a program say, in terms of its rules and of the lines these stand on. -/
structure WellFormed (p : Program) (lines : List SourceLine) : Prop where
  rules : List.Forall₂ SourceLine.Reads lines p.rules
  named : ∀ x, (∃ n, p.symbols.id? x = some n) ↔ x ∈ p.occurrences
  numbered : ∀ n, (∃ x, p.symbols.id? x = some n) ↔ 1 ≤ n ∧ n ≤ p.symbols.size
  distinct : ∀ x y n, p.symbols.id? x = some n → p.symbols.id? y = some n → x = y
  firstSeen : ∀ x y m n, p.symbols.id? x = some m → p.symbols.id? y = some n →
    (m < n ↔ p.occurrences.idxOf x < p.occurrences.idxOf y)
  arity : ∀ x n, p.arity? x = some n ↔
    ∃ r ∈ p.rules, ∃ a ∈ r.atoms, a.predicate = x ∧ (a.arity : Int) = n
  edge : ∀ x y, p.graph.Edge x y ↔
    ∃ r ∈ p.rules, ∃ l ∈ r.literals, l.atom.predicate = x ∧ r.head.predicate = y
  keys : ∀ x, x ∈ p.graph.keys ↔ ∃ r ∈ p.rules, ∃ l ∈ r.literals, l.atom.predicate = x
  intensional : ∀ x, x ∈ p.intensional ↔ ∃ r ∈ p.rules, r.head.predicate = x
  extensional : ∀ x, x ∈ p.extensional ↔ x ∈ p.occurrences ∧ x ∉ p.intensional
  negated : ∀ x, x ∈ p.negated ↔
    ∃ r ∈ p.rules, ∃ l ∈ r.literals, l.negated = true ∧ l.atom.predicate = x

variable {file source : String} {mode : Mode} {p : Program}

theorem interns_of_ofSource (h : ofSource file source mode = .ok p) :
    List.Forall₂ SourceLine.Reads (SourceLine.ofSource source) p.rules
      ∧ p.symbols = SymbolTable.empty.internAll p.occurrences := by
  obtain ⟨hnone, rfl⟩ := Ingestion.result_eq_ok_iff.1
    (show (Ingestion.ofLines file mode (SourceLine.ofSource source)).result = _ from h)
  have hinterns := Intake.run_preserves_of_accepted (P := Intake.Interns)
    (fun _ _ _ _ hs hl => Intake.interns_step hs hl) (SourceLine.ofSource source) .start []
    ⟨.nil, rfl⟩ hnone
  exact ⟨hinterns.rules, hinterns.symbols⟩

theorem mem_occurrences_iff {x : String} :
    x ∈ p.occurrences ↔ (∃ r ∈ p.rules, r.head.predicate = x)
      ∨ ∃ r ∈ p.rules, ∃ l ∈ r.literals, l.atom.predicate = x := by
  unfold occurrences Rule.predicates Rule.atoms
  simp only [List.mem_flatMap, List.map_cons, List.map_map, List.mem_cons, List.mem_map,
    Function.comp_apply, and_or_left, exists_or, @eq_comm _ x]

/-- The graph lists the predicates of bodies. -/
theorem mem_keys_iff (h : ofSource file source mode = .ok p) {x : String} :
    x ∈ p.graph.keys ↔ ∃ r ∈ p.rules, ∃ l ∈ r.literals, l.atom.predicate = x := by
  rw [graph_of_ofSource h, mem_keys_graphOf_iff]
  simp only [edge_graphOf_iff]
  constructor
  · rintro ⟨y, r, hr, l, hl, hx, -⟩
    exact ⟨r, hr, l, hl, hx⟩
  · rintro ⟨r, hr, l, hl, hx⟩
    exact ⟨_, r, hr, l, hl, hx, rfl⟩

/-- **The tables of a program agree with its rules.** In either mode, a program that comes out of a
source in valid UTF-8 has one rule for each rule line, in order. Its symbols are the predicates of
the rules and are numbered from one by first appearance; arities are recorded for exactly these
predicates and are those of all their atoms; the graph has an edge from each predicate of a body to
the head and lists the predicates of bodies; heads are intensional, the remaining predicates
extensional, and those with a negated literal negated. -/
theorem wellFormed_of_ofSource (h : ofSource file source mode = .ok p) :
    p.WellFormed (SourceLine.ofSource source) := by
  obtain ⟨hrules, hsymbols⟩ := interns_of_ofSource h
  refine
    { rules := hrules
      named := ?_
      numbered := fun n => SymbolTable.exists_id?_iff
      distinct := fun x y n => SymbolTable.eq_of_id?
      firstSeen := ?_
      arity := fun x n => arity?_eq_some_iff h
      edge := ?_
      keys := fun x => mem_keys_iff h
      intensional := fun x => mem_intensional_iff h
      extensional := ?_
      negated := ?_ }
  · intro x
    simp only [SymbolTable.id?_eq_some_iff, exists_and_left, exists_eq, and_true]
    rw [hsymbols, SymbolTable.mem_names_internAll_iff]
    exact or_iff_right List.not_mem_nil
  · intro x y m n hx hy
    rw [hsymbols] at hx hy
    exact SymbolTable.id?_internAll_lt_iff hx hy
  · intro x y
    rw [graph_of_ofSource h]
    exact edge_graphOf_iff
  · -- a predicate that is no head stands in a body, and is thus listed as a producer
    intro x
    rw [mem_extensional_iff h, mem_keys_iff h, mem_occurrences_iff]
    refine and_congr_left fun hx => ?_
    rw [mem_intensional_iff h] at hx
    exact (or_iff_right hx).symm
  · intro x
    rw [mem_negated_iff h]
    refine exists_congr fun r => and_congr_right fun _ => ?_
    constructor
    · rintro ⟨a, ha, rfl⟩
      exact ⟨⟨true, a⟩, Layering.mem_negative_iff.1 ha, rfl, rfl⟩
    · rintro ⟨⟨negated, a⟩, hl, rfl, rfl⟩
      exact ⟨a, Layering.mem_negative_iff.2 hl, rfl⟩

/-- A predicate that is read before it is defined, and one that is only negated. -/
theorem wellFormed_lost :
    let source := "lost(X) :- won(X), not kept(X).\n\nwon(Y) :- won(Y), lost(Y)."
    ∃ p, ofSource "lost.dl" source .accumulate = .ok p
      ∧ p.symbols.names = ["lost", "won", "kept"] ∧ p.extensional = ["kept"]
      ∧ p.WellFormed (SourceLine.ofSource source) := by
  have hread : (match ofSource "lost.dl"
        "lost(X) :- won(X), not kept(X).\n\nwon(Y) :- won(Y), lost(Y)." .accumulate with
      | .ok p => p.symbols.names == ["lost", "won", "kept"] && p.extensional == ["kept"]
      | .error _ => false) = true := by
    decide +kernel
  split at hread
  case h_2 => cases hread
  case h_1 p hp =>
    simp only [Bool.and_eq_true, beq_iff_eq] at hread
    exact ⟨p, hp, hread.1, hread.2, wellFormed_of_ofSource hp⟩

end Program

end RulePlan
