import RulePlan.Proofs.EvaluationOrder
import RulePlan.Proofs.NegativeCycles
import RulePlan.Proofs.PredicateNames

/-!
# RulePlan.Proofs.Reordering — the same lines in another order

The number of a line reaches the rule that is read from it as the place of the rule, and nothing
else: scanning notes it at every token, and no decision of the parser looks at it. Lines in another
order therefore give the same rules in another order, places aside. Acceptance compares every atom
with every other one, so it does not depend on the order either, and the sets of predicates, the
arities and the edges of the dependency graph are read off the rules one by one.
-/

namespace RulePlan

/-- The rule without its place in the source. -/
def Rule.unplaced (r : Rule) : Rule := { r with line := 0 }

/-! ## Reading a line -/

namespace Token

/-- Scanning gives the same tokens or fails, whatever the number of the line. -/
theorem scan_line (line line' : Int) (col : Nat) (cs : List Char) :
    (scan line col cs).tokens.map unplaced = (scan line' col cs).tokens.map unplaced
      ∧ ((scan line col cs).fault = none ↔ (scan line' col cs).fault = none) := by
  fun_induction scan line col cs with
  | case1 col => simp [scan_nil]
  | case2 col c cs hblank ih =>
    rw [scan_blank hblank line' col cs]
    exact ih
  | case3 col c cs hblank hmunch =>
    rw [scan_stuck hblank hmunch line' col]
    simp
  | case4 col c cs hblank k spelling r hmunch s ih =>
    have hsplit : c :: cs = spelling ++ r := append_of_munch hmunch
    rw [hsplit] at hmunch ⊢
    rw [scan_spelling hmunch]
    exact ⟨congrArg (List.cons _) ih.1, ih.2⟩

/-- The tokens of a text do not depend on the number of its line, their places aside. -/
theorem tokenize_line {text : String} {line : Int} {tokens : List Token}
    (h : tokenize text line = .ok tokens) (line' : Int) :
    ∃ tokens', tokenize text line' = .ok tokens'
      ∧ tokens'.dropLast.map unplaced = tokens.dropLast.map unplaced := by
  obtain ⟨htokens, hfault⟩ :=
    scan_line (lineNumber line) (lineNumber line') 1 (text.toUTF8.toList.map Text.ofByte)
  obtain ⟨hnone, rfl⟩ := tokenizeBytes_eq_ok_iff.1 h
  refine ⟨_, tokenizeBytes_eq_ok_iff.2 ⟨hfault.1 hnone, rfl⟩, ?_⟩
  rw [List.dropLast_concat, List.dropLast_concat]
  exact htokens.symm

end Token

namespace Rule

theorem Derives.at_line {line : Int} {text : String} {form : Grammar.RuleForm}
    (h : Derives line text form) (line' : Int) : Derives line' text form := by
  obtain ⟨tokens, htokens, hform, hvalid⟩ := h
  obtain ⟨tokens', htokens', hsame⟩ := Token.tokenize_line htokens line'
  exact ⟨tokens', htokens', hsame.trans hform, hvalid⟩

/-- A text is read as the same rule on every line, the place of the rule aside. -/
theorem read_at_line {line : Int} {text : String} {r : Rule}
    (h : (read line text).result = .ok r) (line' : Int) :
    (read line' text).result = .ok { r with line := line' } := by
  obtain ⟨form, hform, rfl⟩ := read_eq_ok_iff.1 h
  exact read_eq_ok_iff.2 ⟨form, hform.at_line line', rfl⟩

/-- The rule that a text is read as, without a place. -/
def ofText? (text : String) : Option Rule := (read 0 text).result.toOption

theorem map_unplaced_read (line : Int) (text : String) :
    (read line text).result.toOption.map unplaced = ofText? text := by
  unfold ofText?
  cases hread : (read line text).result with
  | ok r =>
    rw [read_at_line hread 0]
    rfl
  | error fault =>
    cases hzero : (read 0 text).result with
    | ok r => exact nomatch hread.symm.trans (read_at_line hzero line)
    | error fault' => rfl

end Rule

/-! ## Lines in another order -/

namespace SourceLine

/-- The text of the rule line that a piece of the source is, if it is one. -/
def textOf? (piece : List Char) : Option String := (ofPiece? 0 piece).map text

theorem map_text_ofPiece? (n : Nat) (piece : List Char) :
    (ofPiece? n piece).map text = textOf? piece := by
  unfold textOf? ofPiece?
  dsimp only
  split <;> rfl

theorem map_text_numberFrom (n : Nat) (ps : List (List Char)) :
    (numberFrom n ps).map text = ps.filterMap textOf? := by
  induction ps generalizing n with
  | nil => rfl
  | cons p ps ih =>
    rw [numberFrom, List.map_append, ih, List.filterMap_cons, ← map_text_ofPiece? n p]
    cases ofPiece? n p with
    | none => rfl
    | some l => rfl

/-- The source has the lines of another one, in any order. -/
def Permutes (source source' : String) : Prop :=
  (pieces source.toList).Perm (pieces source'.toList)

instance (source source' : String) : Decidable (Permutes source source') :=
  inferInstanceAs (Decidable (List.Perm _ _))

theorem Permutes.symm {source source' : String} (h : Permutes source source') :
    Permutes source' source := List.Perm.symm h

variable {source source' : String}

theorem Permutes.texts (h : Permutes source source') :
    ((ofSource source).map text).Perm ((ofSource source').map text) := by
  unfold ofSource
  rw [map_text_numberFrom, map_text_numberFrom]
  exact h.filterMap textOf?

theorem map_unplaced_rules (lines : List SourceLine) :
    (rules lines).map Rule.unplaced = (lines.map text).filterMap Rule.ofText? := by
  unfold rules
  rw [List.map_filterMap, List.filterMap_map]
  refine List.filterMap_congr fun l _ => ?_
  exact Rule.map_unplaced_read l.number l.text

theorem Permutes.rules (h : Permutes source source') :
    ((rules (ofSource source)).map Rule.unplaced).Perm
      ((SourceLine.rules (ofSource source')).map Rule.unplaced) := by
  rw [map_unplaced_rules, map_unplaced_rules]
  exact h.texts.filterMap Rule.ofText?

theorem reads_iff_text {l : SourceLine} : (∃ r, l.Reads r) ↔ (Rule.ofText? l.text).isSome := by
  rw [← Rule.map_unplaced_read l.number, Option.isSome_map]
  unfold Reads
  cases (Rule.read l.number l.text).result with
  | ok r => simp [Except.toOption]
  | error fault => simp [Except.toOption]

end SourceLine

/-! ## Rules in another order -/

/-- Rules are the same as others, in any order and places aside. -/
def Rule.Permutes (rules rules' : List Rule) : Prop :=
  (rules.map unplaced).Perm (rules'.map unplaced)

namespace Rule.Permutes

variable {rules rules' : List Rule}

theorem symm (h : Permutes rules rules') : Permutes rules' rules := List.Perm.symm h

/-- What is read off rules without their places is the same in any order. -/
theorem map {β : Type} (h : Permutes rules rules') {f : Rule → β} (hf : ∀ r, f r.unplaced = f r) :
    (rules.map f).Perm (rules'.map f) := by
  have hmap : ∀ l : List Rule, l.map f = (l.map unplaced).map f := by
    intro l
    rw [List.map_map]
    exact List.map_congr_left fun r _ => (hf r).symm
  rw [hmap rules, hmap rules']
  exact List.Perm.map f h

theorem flatMap {β : Type} (h : Permutes rules rules') {f : Rule → List β}
    (hf : ∀ r, f r.unplaced = f r) : (rules.flatMap f).Perm (rules'.flatMap f) := by
  rw [List.flatMap_def, List.flatMap_def]
  exact (h.map hf).flatten

/-- A property without regard to places holds of some rule here iff it does there. -/
theorem exists_iff (h : Permutes rules rules') {P : Rule → Prop}
    (hP : ∀ r, P r.unplaced ↔ P r) : (∃ r ∈ rules, P r) ↔ ∃ r ∈ rules', P r := by
  have hmap : ∀ l : List Rule, (∃ r ∈ l, P r) ↔ ∃ r ∈ l.map unplaced, P r := by
    intro l
    simp only [List.mem_map, exists_exists_and_eq_and, hP]
  rw [hmap rules, hmap rules']
  exact exists_congr fun r => and_congr_left fun _ => List.Perm.mem_iff h

theorem forall_iff (h : Permutes rules rules') {P : Rule → Prop}
    (hP : ∀ r, P r.unplaced ↔ P r) : (∀ r ∈ rules, P r) ↔ ∀ r ∈ rules', P r := by
  have hnot := h.exists_iff (P := fun r => ¬P r) fun r => not_congr (hP r)
  simpa only [not_exists, not_and, not_not] using not_congr hnot

end Rule.Permutes

/-! ## Acceptance -/

theorem Rule.safe_unplaced (r : Rule) : r.unplaced.Safe ↔ r.Safe := by
  constructor <;> rintro ⟨h₁, h₂, h₃, h₄, h₅, h₆, h₇, h₈, h₉, h₁₀⟩ <;>
    exact ⟨h₁, h₂, h₃, h₄, h₅, h₆, h₇, h₈, h₉, h₁₀⟩

theorem SourceLine.Permutes.admissible {source source' : String} (h : Permutes source source')
    (hadm : Admissible [] (ofSource source)) : Admissible [] (ofSource source') := by
  obtain ⟨hread, hsafe, hfits⟩ := hadm
  have hrules : Rule.Permutes (SourceLine.rules (ofSource source)) _ := h.rules
  refine ⟨?_, (hrules.forall_iff Rule.safe_unplaced).1 hsafe, ?_⟩
  · intro l hl
    obtain ⟨m, hm, htext⟩ := List.mem_map.1
      (h.symm.texts.mem_iff.1 (List.mem_map.2 ⟨l, hl, rfl⟩))
    rw [reads_iff_text, ← htext]
    exact reads_iff_text.1 (hread m hm)
  · have hatoms := hrules.flatMap (f := Rule.atoms) fun _ => rfl
    rw [fits_nil_iff] at hfits ⊢
    intro a ha b hb
    exact hfits a (hatoms.mem_iff.2 ha) b (hatoms.mem_iff.2 hb)

namespace Program

variable {file file' source source' : String} {mode mode' : Mode} {p p' : Program}

theorem ofSource_isOk_iff_admissible (file source : String) (mode : Mode) :
    (∃ p, ofSource file source mode = .ok p)
      ↔ SourceLine.Admissible [] (SourceLine.ofSource source) :=
  (Ingestion.isOk_iff file mode (SourceLine.ofSource source)).trans
    (Intake.forall_accepted_iff file mode (SourceLine.ofSource source) .start)

/-- Lines in another order give a program, with the same rules in another order. -/
theorem ofSource_of_permutes (h : SourceLine.Permutes source source')
    (hp : ofSource file source mode = .ok p) (file' : String) (mode' : Mode) :
    ∃ p', ofSource file' source' mode' = .ok p' ∧ Rule.Permutes p.rules p'.rules := by
  have hadm := (ofSource_isOk_iff_admissible file source mode).1 ⟨p, hp⟩
  obtain ⟨p', hp'⟩ := (ofSource_isOk_iff_admissible file' source' mode').2 (h.admissible hadm)
  refine ⟨p', hp', ?_⟩
  rw [rules_of_ofSource hp, rules_of_ofSource hp']
  exact h.rules

/-! ## Sets of predicates, arities and graph -/

theorem mem_intensional_iff (hp : ofSource file source mode = .ok p) {x : String} :
    x ∈ p.intensional ↔ ∃ r ∈ p.rules, r.head.predicate = x := by
  obtain ⟨s, -, rfl⟩ := exists_intake_of_ofSource hp
  show x ∈ Names.ofList (s.rules.map (·.head.predicate)) ↔ ∃ r ∈ s.rules, _
  rw [Names.mem_ofList, List.mem_map]

theorem mem_negated_iff (hp : ofSource file source mode = .ok p) {x : String} :
    x ∈ p.negated ↔ ∃ r ∈ p.rules, ∃ a ∈ r.negative, a.predicate = x := by
  obtain ⟨s, -, rfl⟩ := exists_intake_of_ofSource hp
  show x ∈ Names.ofList (s.rules.flatMap fun r => r.negative.map Atom.predicate)
    ↔ ∃ r ∈ s.rules, _
  rw [Names.mem_ofList, List.mem_flatMap]
  simp only [List.mem_map]

theorem mem_extensional_iff (hp : ofSource file source mode = .ok p) {x : String} :
    x ∈ p.extensional ↔ x ∈ p.graph.keys ∧ x ∉ p.intensional := by
  obtain ⟨s, -, rfl⟩ := exists_intake_of_ofSource hp
  show x ∈ List.filter _ _ ↔ _
  rw [List.mem_filter, decide_eq_true_eq]
  exact Iff.rfl

theorem graph_of_ofSource (hp : ofSource file source mode = .ok p) : p.graph = graphOf p.rules :=
  (accepted_of_ofSource hp).graph

/-- Every producer of a graph that only grows by edges has a consumer. -/
theorem exists_edge_of_mem_keys {rules : List Rule} {x : String}
    (h : x ∈ (graphOf rules).keys) : ∃ y, (graphOf rules).Edge x y := by
  revert x
  refine List.foldlRecOn (motive := fun g : Graph => ∀ {x}, x ∈ g.keys → ∃ y, g.Edge x y) rules
    addRule (fun hx => absurd hx List.not_mem_nil) ?_
  intro g hg r _
  refine List.foldlRecOn (motive := fun g : Graph => ∀ {x}, x ∈ g.keys → ∃ y, g.Edge x y)
    r.literals _ hg ?_
  intro g hg l _ x hx
  rw [Graph.keys_addEdge] at hx
  simp only [Graph.edge_addEdge_iff]
  unfold Graph.addNode at hx
  split at hx
  case isTrue =>
    obtain ⟨y, hy⟩ := hg hx
    exact ⟨y, .inl hy⟩
  case isFalse =>
    unfold Graph.keys at hx
    rw [List.map_append, List.mem_append] at hx
    rcases hx with hx | hx
    · obtain ⟨y, hy⟩ := hg hx
      exact ⟨y, .inl hy⟩
    · exact ⟨_, .inr ⟨(List.mem_singleton.1 hx).symm, rfl⟩⟩

theorem mem_keys_graphOf_iff {rules : List Rule} {x : String} :
    x ∈ (graphOf rules).keys ↔ ∃ y, (graphOf rules).Edge x y :=
  ⟨exists_edge_of_mem_keys, fun ⟨_, h⟩ => Graph.mem_keys_of_edge h⟩

/-- Programs with the same predicates in the same places: the same sets, arities and edges. -/
structure Alike (p p' : Program) : Prop where
  extensional : ∀ x, x ∈ p.extensional ↔ x ∈ p'.extensional
  intensional : ∀ x, x ∈ p.intensional ↔ x ∈ p'.intensional
  negated : ∀ x, x ∈ p.negated ↔ x ∈ p'.negated
  arity : ∀ x, p.arity? x = p'.arity? x
  keys : ∀ x, x ∈ p.graph.keys ↔ x ∈ p'.graph.keys
  edge : ∀ x y, p.graph.Edge x y ↔ p'.graph.Edge x y

/-- The order of the rules decides nothing about the predicates. -/
theorem alike_of_permutes (hp : ofSource file source mode = .ok p)
    (hp' : ofSource file' source' mode' = .ok p') (h : Rule.Permutes p.rules p'.rules) :
    p.Alike p' := by
  have hintensional : ∀ x, x ∈ p.intensional ↔ x ∈ p'.intensional := by
    intro x
    rw [mem_intensional_iff hp, mem_intensional_iff hp']
    exact h.exists_iff fun _ => Iff.rfl
  have hedge : ∀ x y, p.graph.Edge x y ↔ p'.graph.Edge x y := by
    intro x y
    rw [graph_of_ofSource hp, graph_of_ofSource hp', edge_graphOf_iff, edge_graphOf_iff]
    exact h.exists_iff fun _ => Iff.rfl
  have hkeys : ∀ x, x ∈ p.graph.keys ↔ x ∈ p'.graph.keys := by
    intro x
    simp only [graph_of_ofSource hp, graph_of_ofSource hp', mem_keys_graphOf_iff] at hedge ⊢
    exact exists_congr (hedge x)
  refine ⟨?_, hintensional, ?_, ?_, hkeys, hedge⟩
  · intro x
    rw [mem_extensional_iff hp, mem_extensional_iff hp', hkeys, hintensional]
  · intro x
    rw [mem_negated_iff hp, mem_negated_iff hp']
    exact h.exists_iff fun _ => Iff.rfl
  · intro x
    refine Option.ext fun n => ?_
    rw [arity?_eq_some_iff hp, arity?_eq_some_iff hp']
    exact h.exists_iff fun _ => Iff.rfl

theorem mentions_iff_of_permutes (h : Rule.Permutes p.rules p'.rules) {x : String} :
    p.Mentions x ↔ p'.Mentions x :=
  h.exists_iff fun _ => Iff.rfl

end Program

end RulePlan
