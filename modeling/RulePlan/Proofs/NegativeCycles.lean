import Mathlib.Data.Set.Card
import RulePlan.Proofs.Acceptance
import RulePlan.Proofs.Components
import RulePlan.Proofs.Convergence

/-!
# RulePlan.Proofs.NegativeCycles — recursion through negation is the only failure

The dependency graph has an edge wherever a rule reads a predicate, so a negated predicate shares a
component with the head of its rule iff the head reaches it. A program without such a rule has
layers: number a predicate by how many predicates reach it on a path through a negation. An edge
keeps that number or raises it, and a negated one raises it, since the predicate it starts from
counts for the consumer but not for itself. By the bound on passes the layers are then found.
-/

namespace RulePlan

/-! ## The dependency graph -/

namespace Graph

variable {g : Graph}

theorem nodup_keys_addNode (h : g.keys.Nodup) (x : String) : (g.addNode x).keys.Nodup := by
  unfold addNode
  split
  · exact h
  · rename_i hx
    unfold keys at *
    rw [List.map_append, List.map_singleton]
    refine List.nodup_append.2 ⟨h, List.nodup_singleton x, ?_⟩
    intro a ha b hb hab
    obtain rfl : b = x := List.mem_singleton.1 hb
    exact hx (hab ▸ ha)

theorem keys_addEdge (g : Graph) (producer consumer : String) :
    (g.addEdge producer consumer).keys = (g.addNode producer).keys := by
  unfold addEdge keys
  rw [List.map_map]
  refine List.map_congr_left fun e _ => ?_
  show (if e.1 = producer then (e.1, Names.add e.2 consumer) else e).1 = e.1
  split <;> rfl

theorem edge_addNode_iff {x y z : String} : (g.addNode x).Edge y z ↔ g.Edge y z := by
  unfold addNode
  split
  · exact Iff.rfl
  · constructor
    · rintro ⟨e, he, hkey, hz⟩
      rcases List.mem_append.1 he with he | he
      · exact ⟨e, he, hkey, hz⟩
      · rw [List.mem_singleton.1 he] at hz
        exact absurd hz List.not_mem_nil
    · rintro ⟨e, he, hkey, hz⟩
      exact ⟨e, List.mem_append_left _ he, hkey, hz⟩

theorem exists_entry_addNode (g : Graph) (x : String) : ∃ e ∈ (g.addNode x).entries, e.1 = x := by
  unfold addNode
  split
  · rename_i hx
    exact List.mem_map.1 hx
  · exact ⟨(x, []), List.mem_append_right _ List.mem_cons_self, rfl⟩

/-- An added edge is the only new one. -/
theorem edge_addEdge_iff {producer consumer x y : String} :
    (g.addEdge producer consumer).Edge x y ↔ g.Edge x y ∨ producer = x ∧ consumer = y := by
  rw [← edge_addNode_iff (g := g) (x := producer)]
  constructor
  · rintro ⟨e', he', rfl, hy⟩
    obtain ⟨e, he, rfl⟩ := List.mem_map.1 he'
    by_cases hkey : e.1 = producer
    · rw [if_pos hkey] at hy ⊢
      rcases Names.mem_add.1 hy with hy | hy
      · exact .inl ⟨e, he, rfl, hy⟩
      · exact .inr ⟨hkey.symm, hy.symm⟩
    · rw [if_neg hkey] at hy ⊢
      exact .inl ⟨e, he, rfl, hy⟩
  · rintro (⟨e, he, rfl, hy⟩ | ⟨rfl, rfl⟩)
    · refine ⟨_, List.mem_map.2 ⟨e, he, rfl⟩, ?_, ?_⟩ <;> split
      · rfl
      · rfl
      · exact Names.mem_add.2 (.inl hy)
      · exact hy
    · obtain ⟨e, he, hkey⟩ := exists_entry_addNode g producer
      refine ⟨_, List.mem_map.2 ⟨e, he, rfl⟩, ?_⟩
      rw [if_pos hkey]
      exact ⟨hkey, Names.mem_add.2 (.inr rfl)⟩

end Graph

namespace Program

theorem nodup_keys_addRule {g : Graph} (h : g.keys.Nodup) (r : Rule) :
    (addRule g r).keys.Nodup := by
  unfold addRule
  refine List.foldlRecOn (motive := fun g : Graph => g.keys.Nodup) r.literals _ h fun g hg l _ => ?_
  rw [Graph.keys_addEdge]
  exact Graph.nodup_keys_addNode hg _

theorem nodup_keys_graphOf (rules : List Rule) : (graphOf rules).keys.Nodup := by
  unfold graphOf
  have hempty : Graph.empty.keys.Nodup := List.nodup_nil
  exact List.foldlRecOn (motive := fun g : Graph => g.keys.Nodup) rules addRule hempty
    fun g hg r _ => nodup_keys_addRule hg r

theorem edge_foldl_addEdge_iff {g : Graph} {head : String} {literals : List Literal}
    {x y : String} :
    (literals.foldl (fun g l => g.addEdge l.atom.predicate head) g).Edge x y
      ↔ g.Edge x y ∨ ∃ l ∈ literals, l.atom.predicate = x ∧ head = y := by
  induction literals generalizing g with
  | nil => exact (or_iff_left (fun ⟨_, hl, _⟩ => absurd hl List.not_mem_nil)).symm
  | cons l literals ih =>
    rw [List.foldl_cons, ih, Graph.edge_addEdge_iff, or_assoc, List.exists_mem_cons_iff]

theorem edge_foldl_addRule_iff {g : Graph} {rules : List Rule} {x y : String} :
    (rules.foldl addRule g).Edge x y
      ↔ g.Edge x y
        ∨ ∃ r ∈ rules, ∃ l ∈ r.literals, l.atom.predicate = x ∧ r.head.predicate = y := by
  induction rules generalizing g with
  | nil => exact (or_iff_left (fun ⟨_, hr, _⟩ => absurd hr List.not_mem_nil)).symm
  | cons r rules ih =>
    rw [List.foldl_cons, ih, List.exists_mem_cons_iff, ← or_assoc]
    exact or_congr_left edge_foldl_addEdge_iff

/-- An edge of the dependency graph is a predicate in the body of a rule. -/
theorem edge_graphOf_iff {rules : List Rule} {x y : String} :
    (graphOf rules).Edge x y
      ↔ ∃ r ∈ rules, ∃ l ∈ r.literals, l.atom.predicate = x ∧ r.head.predicate = y := by
  unfold graphOf
  rw [edge_foldl_addRule_iff]
  exact or_iff_right fun ⟨_, he, _⟩ => absurd he List.not_mem_nil

/-- A rule recurses through negation: its head reaches a predicate that it negates. -/
def RecursesThroughNegation (p : Program) (r : Rule) : Prop :=
  ∃ a ∈ r.negative, p.graph.Reaches r.head.predicate a.predicate

end Program

namespace Layering

/-! ## The check -/

theorem mem_negative_iff {r : Rule} {a : Atom} :
    a ∈ r.negative ↔ (⟨true, a⟩ : Literal) ∈ r.literals := by
  unfold Rule.negative
  constructor
  · intro h
    obtain ⟨⟨negated, atom⟩, hl, rfl⟩ := List.mem_map.1 h
    obtain ⟨hmem, hneg⟩ := List.mem_filter.1 hl
    obtain rfl : negated = true := hneg
    exact hmem
  · intro h
    exact List.mem_map.2 ⟨⟨true, a⟩, List.mem_filter.2 ⟨h, rfl⟩, rfl⟩

/-- A rule whose head no rule reads does not recurse through negation. -/
theorem not_recursesThroughNegation {p : Program} {r : Rule}
    (hgraph : p.graph = Program.graphOf p.rules) (hr : r ∈ p.rules)
    (hunread : ∀ q ∈ p.rules, ∀ l ∈ q.literals, l.atom.predicate ≠ r.head.predicate) :
    ¬p.RecursesThroughNegation r := by
  rintro ⟨a, ha, hreach⟩
  rcases Relation.ReflTransGen.cases_head hreach with hself | ⟨y, hedge, -⟩
  · exact hunread r hr ⟨true, a⟩ (mem_negative_iff.1 ha) hself.symm
  · rw [hgraph] at hedge
    obtain ⟨q, hq, l, hl, hread, -⟩ := Program.edge_graphOf_iff.1 hedge
    exact hunread q hq l hl hread

/-- The failure that a rule alone would cause. -/
def cycleAt? (p : Program) (r : Rule) : Option LayerFault :=
  let home := componentNumber p.graph.components r.head.predicate
  (r.negative.find? fun a => componentNumber p.graph.components a.predicate == home).map fun a =>
    .negativeCycle r.line r.head.predicate a.predicate
      (Names.sorted (p.graph.components[home]?.getD []))

theorem negativeCycle?_eq (p : Program) : negativeCycle? p = p.rules.findSome? (cycleAt? p) := rfl

section Check

variable {p : Program} {r : Rule} (hgraph : p.graph = Program.graphOf p.rules)

include hgraph

/-- A negated predicate is in the component of the head iff the head reaches it. -/
theorem componentNumber_negative_iff (hr : r ∈ p.rules) {a : Atom} (ha : a ∈ r.negative) :
    componentNumber p.graph.components a.predicate
        = componentNumber p.graph.components r.head.predicate
      ↔ p.graph.Reaches r.head.predicate a.predicate := by
  have hnodup : p.graph.keys.Nodup := hgraph ▸ Program.nodup_keys_graphOf p.rules
  have hedge : p.graph.Edge a.predicate r.head.predicate := by
    rw [hgraph]
    exact Program.edge_graphOf_iff.2 ⟨r, hr, ⟨true, a⟩, mem_negative_iff.1 ha, rfl, rfl⟩
  rw [Graph.componentNumber_eq_iff hnodup (Graph.mem_nodes_left hedge)
    (Graph.mem_nodes_right hedge)]
  exact and_iff_right (Relation.ReflTransGen.single hedge)

theorem cycleAt?_eq_none_iff (hr : r ∈ p.rules) :
    cycleAt? p r = none ↔ ¬p.RecursesThroughNegation r := by
  unfold cycleAt?
  rw [Option.map_eq_none_iff, List.find?_eq_none]
  constructor
  · rintro h ⟨a, ha, hreach⟩
    exact h a ha (beq_iff_eq.2 ((componentNumber_negative_iff hgraph hr ha).2 hreach))
  · intro h a ha hsame
    exact h ⟨a, ha, (componentNumber_negative_iff hgraph hr ha).1 (eq_of_beq hsame)⟩

theorem cycleAt?_eq_some {fault : LayerFault} (hr : r ∈ p.rules)
    (h : cycleAt? p r = some fault) :
    p.RecursesThroughNegation r
      ∧ ∃ head negated members, fault = .negativeCycle r.line head negated members := by
  constructor
  · by_contra hnot
    rw [(cycleAt?_eq_none_iff hgraph hr).2 hnot] at h
    exact nomatch h
  · obtain ⟨a, -, rfl⟩ := Option.map_eq_some_iff.1 h
    exact ⟨_, _, _, rfl⟩

theorem negativeCycle?_eq_none_iff :
    negativeCycle? p = none ↔ ∀ r ∈ p.rules, ¬p.RecursesThroughNegation r := by
  rw [negativeCycle?_eq, List.findSome?_eq_none_iff]
  exact forall₂_congr fun r hr => cycleAt?_eq_none_iff hgraph hr

/-- The check reports the first rule that recurses through negation. -/
theorem negativeCycle?_eq_some {fault : LayerFault} (h : negativeCycle? p = some fault) :
    ∃ before r after, p.rules = before ++ r :: after
      ∧ p.RecursesThroughNegation r ∧ (∀ q ∈ before, ¬p.RecursesThroughNegation q)
      ∧ ∃ head negated members, fault = .negativeCycle r.line head negated members := by
  rw [negativeCycle?_eq] at h
  obtain ⟨before, r, after, hsplit, hr, hbefore⟩ := List.findSome?_eq_some_iff.1 h
  have hmem : r ∈ p.rules := by
    rw [hsplit]
    exact List.mem_append_right _ List.mem_cons_self
  obtain ⟨hrecurses, hfault⟩ := cycleAt?_eq_some hgraph hmem hr
  refine ⟨before, r, after, hsplit, hrecurses, fun q hq => ?_, hfault⟩
  have hqmem : q ∈ p.rules := by
    rw [hsplit]
    exact List.mem_append_left _ hq
  exact (cycleAt?_eq_none_iff hgraph hqmem).1 (hbefore q hq)

end Check

/-! ## Layers of a program without recursion through negation -/

/-- Some rule with the second predicate as its head negates the first. -/
def NegativeEdge (p : Program) (x y : String) : Prop :=
  ∃ r ∈ p.rules, ∃ a ∈ r.negative, a.predicate = x ∧ r.head.predicate = y

/-- There is a path through a negation. -/
def ReachesNegatively (p : Program) (x y : String) : Prop :=
  ∃ u v, p.graph.Reaches x u ∧ NegativeEdge p u v ∧ p.graph.Reaches v y

/-- How many predicates reach a predicate through a negation. -/
noncomputable def negativeDepth (p : Program) (y : String) : Nat :=
  {x | x ∈ p.graph.nodes ∧ ReachesNegatively p x y}.ncard

section Depth

variable {p : Program}

theorem finite_negativeReach (p : Program) (y : String) :
    {x | x ∈ p.graph.nodes ∧ ReachesNegatively p x y}.Finite :=
  (List.finite_toSet p.graph.nodes).subset fun _ hx => hx.1

theorem negativeDepth_le {x y : String} (h : p.graph.Edge x y) :
    negativeDepth p x ≤ negativeDepth p y := by
  refine Set.ncard_le_ncard ?_ (finite_negativeReach p y)
  rintro z ⟨hz, u, v, hzu, huv, hvx⟩
  exact ⟨hz, u, v, hzu, huv, hvx.tail h⟩

/-- A predicate that reaches itself through a negation is part of a cycle through that negation. -/
theorem not_reachesNegatively_self (hnone : ∀ r ∈ p.rules, ¬p.RecursesThroughNegation r)
    (x : String) : ¬ReachesNegatively p x x := by
  rintro ⟨u, v, hxu, ⟨r, hr, a, ha, rfl, rfl⟩, hvx⟩
  exact hnone r hr ⟨a, ha, hvx.trans hxu⟩

theorem negativeDepth_lt (hnone : ∀ r ∈ p.rules, ¬p.RecursesThroughNegation r) {x y : String}
    (h : p.graph.Edge x y) (hneg : NegativeEdge p x y) :
    negativeDepth p x < negativeDepth p y := by
  refine Set.ncard_lt_ncard ⟨?_, fun hsub => ?_⟩ (finite_negativeReach p y)
  · rintro z ⟨hz, u, v, hzu, huv, hvx⟩
    exact ⟨hz, u, v, hzu, huv, hvx.tail h⟩
  · -- `x` itself counts for `y`, so it would count for `x`
    have hx := hsub ⟨Graph.mem_nodes_left h, x, y, .refl, hneg, .refl⟩
    exact not_reachesNegatively_self hnone x hx.2

/-- Rules numbered by the depth of their heads meet the constraints. -/
theorem respects_negativeDepth (hgraph : p.graph = Program.graphOf p.rules)
    (hnone : ∀ r ∈ p.rules, ¬p.RecursesThroughNegation r) :
    Respects p.rules fun i => (p.rules[i]?.map (negativeDepth p ·.head.predicate)).getD 0 := by
  rintro i l d ⟨⟨r, hr, hl⟩, q, hq, hhead⟩
  have hmem : r ∈ p.rules := List.mem_of_getElem? hr
  have hedge : p.graph.Edge q.head.predicate r.head.predicate := by
    rw [hgraph]
    exact Program.edge_graphOf_iff.2 ⟨r, hmem, l, hl, hhead.symm, rfl⟩
  simp only [hr, hq, Option.map_some, Option.getD_some]
  refine ⟨negativeDepth_le hedge, fun hneg => ?_⟩
  have hlit : l = ⟨true, l.atom⟩ := hneg ▸ rfl
  refine negativeDepth_lt hnone hedge ⟨r, hmem, l.atom, ?_, hhead.symm, rfl⟩
  exact mem_negative_iff.2 (hlit ▸ hl)

end Depth

/-! ## The outcome -/

/-- A program without recursion through negation gets its layers, in at most one pass more than it
has rules. -/
theorem ofProgram_isOk {p : Program} (hgraph : p.graph = Program.graphOf p.rules)
    (hnone : ∀ r ∈ p.rules, ¬p.RecursesThroughNegation r) :
    ∃ strata passes, (ofProgram p).result = .ok (strata, passes)
      ∧ passes ≤ p.rules.length + 1 := by
  have hs := respects_negativeDepth hgraph hnone
  have hlen : (p.rules.map fun _ => 0).length = p.rules.length := by rw [List.length_map]
  have hle : ∀ i, (p.rules.map fun _ => 0).getD i 0 ≤ least p.rules i := by
    intro i
    rw [getD_map_zero]
    exact Nat.zero_le _
  unfold ofProgram
  rw [(negativeCycle?_eq_none_iff hgraph).2 hnone]
  obtain ⟨strata, passes, hok, hpasses⟩ :=
    settle_isOk hs hlen hle (Nat.lt_succ_of_le (length_behind_le _ _))
  exact ⟨strata, passes, hok, Nat.zero_add (p.rules.length + 1) ▸ hpasses⟩

/-- **Layering fails only on recursion through negation.** A program that comes out of a source has
no layers iff the head of some rule reaches a predicate that the rule negates. The failure is then a
cycle at the line of the first such rule; in all other cases the passes settle within one pass more
than there are rules. -/
theorem ofProgram_error_iff {file source : String} {mode : Mode} {p : Program}
    (h : Program.ofSource file source mode = .ok p) :
    ((∃ fault, (ofProgram p).result = .error fault)
        ↔ ∃ r ∈ p.rules, p.RecursesThroughNegation r)
      ∧ (∀ fault, (ofProgram p).result = .error fault →
        ∃ before r after, p.rules = before ++ r :: after
          ∧ p.RecursesThroughNegation r ∧ (∀ q ∈ before, ¬p.RecursesThroughNegation q)
          ∧ (∃ head negated members, fault = .negativeCycle r.line head negated members)
          ∧ fault.report p.file = ⟨p.file, r.line, .cycle, fault.message⟩)
      ∧ ((∀ r ∈ p.rules, ¬p.RecursesThroughNegation r) →
        ∃ strata passes, (ofProgram p).result = .ok (strata, passes)
          ∧ passes ≤ p.rules.length + 1) := by
  have hgraph : p.graph = Program.graphOf p.rules := (Program.accepted_of_ofSource h).graph
  refine ⟨⟨?_, ?_⟩, ?_, ofProgram_isOk hgraph⟩
  · rintro ⟨fault, hfault⟩
    by_contra hnone
    obtain ⟨strata, passes, hok, -⟩ :=
      ofProgram_isOk hgraph fun r hr hrec => hnone ⟨r, hr, hrec⟩
    rw [hok] at hfault
    exact nomatch hfault
  · rintro ⟨r, hr, hrec⟩
    cases hcycle : negativeCycle? p with
    | none => exact absurd hrec ((negativeCycle?_eq_none_iff hgraph).1 hcycle r hr)
    | some fault =>
      refine ⟨fault, ?_⟩
      unfold ofProgram
      rw [hcycle]
  · intro fault hfault
    cases hcycle : negativeCycle? p with
    | none =>
      obtain ⟨strata, passes, hok, -⟩ :=
        ofProgram_isOk hgraph ((negativeCycle?_eq_none_iff hgraph).1 hcycle)
      rw [hok] at hfault
      exact nomatch hfault
    | some found =>
      unfold ofProgram at hfault
      rw [hcycle] at hfault
      cases hfault
      obtain ⟨before, r, after, hsplit, hrec, hbefore, head, negated, members, rfl⟩ :=
        negativeCycle?_eq_some hgraph hcycle
      exact ⟨before, r, after, hsplit, hrec, hbefore, ⟨head, negated, members, rfl⟩, rfl⟩

/-- A position is won if some move leads to one that is not: refused at the rule that says so. -/
theorem ofProgram_error_win :
    ∃ p fault, Program.ofSource "win.dl"
        "move(X, Y) :- edge(X, Y).\nwin(X) :- move(X, Y), not win(Y)." .accumulate = .ok p
      ∧ (ofProgram p).result = .error fault ∧ (fault.report p.file).line = 2
      ∧ (fault.report p.file).category = .cycle := by
  have hread : (match Program.ofSource "win.dl"
        "move(X, Y) :- edge(X, Y).\nwin(X) :- move(X, Y), not win(Y)." .accumulate with
      | .ok p => p.rules.any (fun r => r.negative.any (·.predicate == r.head.predicate))
        && p.rules.all fun r => r.negative.isEmpty || r.line == 2
      | .error _ => false) = true := by
    decide +kernel
  split at hread
  case h_2 => cases hread
  case h_1 p hp =>
    obtain ⟨hany, hall⟩ := Bool.and_eq_true_iff.1 hread
    obtain ⟨r, hr, hnegated⟩ := List.any_eq_true.1 hany
    obtain ⟨a, ha, hsame⟩ := List.any_eq_true.1 hnegated
    have hrec : p.RecursesThroughNegation r := ⟨a, ha, eq_of_beq hsame ▸ .refl⟩
    obtain ⟨hiff, hfirst, -⟩ := ofProgram_error_iff hp
    obtain ⟨fault, hfault⟩ := hiff.2 ⟨r, hr, hrec⟩
    obtain ⟨before, q, after, hsplit, ⟨b, hb, -⟩, -, -, hreport⟩ := hfirst fault hfault
    have hq : q ∈ p.rules := hsplit ▸ List.mem_append_right _ List.mem_cons_self
    have hline : q.line = 2 := by
      rcases Bool.or_eq_true_iff.1 (List.all_eq_true.1 hall q hq) with hnil | hline
      · exact absurd hb (List.isEmpty_iff.1 hnil ▸ List.not_mem_nil)
      · exact eq_of_beq hline
    exact ⟨p, fault, hp, hfault, by rw [hreport]; exact hline, by rw [hreport]⟩

end Layering

end RulePlan
