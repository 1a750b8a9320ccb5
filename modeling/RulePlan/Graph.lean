import RulePlan.Names

/-!
# RulePlan.Graph — which predicate feeds which

An edge runs from a producer to a consumer: the producer stands in the body of a rule whose head is
the consumer. The graph lists producers with their consumers; a listed producer may have none.
-/

namespace RulePlan

/-- Producers with their consumers, each producer once. -/
structure Graph where
  entries : List (String × Names)
deriving Repr, DecidableEq

namespace Graph

/-- No nodes. -/
def empty : Graph := ⟨[]⟩

instance : Inhabited Graph := ⟨empty⟩

/-- The listed producers. -/
def keys (g : Graph) : Names := g.entries.map Prod.fst

/-- The consumers of a producer. -/
def consumers (g : Graph) (x : String) : Names := (g.entries.lookup x).getD []

/-- The producers of a consumer. -/
def producers (g : Graph) (x : String) : Names := (g.entries.filter (x ∈ ·.2)).map Prod.fst

/-- All producers and consumers. -/
def nodes (g : Graph) : Names := Names.ofList (g.entries.flatMap fun e => e.1 :: e.2)

/-- Lists a producer. -/
def addNode (g : Graph) (x : String) : Graph :=
  if x ∈ g.keys then g else ⟨g.entries ++ [(x, [])]⟩

/-- Adds an edge. -/
def addEdge (g : Graph) (producer consumer : String) : Graph :=
  ⟨(g.addNode producer).entries.map fun e =>
    if e.1 = producer then (e.1, Names.add e.2 consumer) else e⟩

/-- The graph without some nodes and the edges at them. -/
def without (g : Graph) (removed : Names) : Graph :=
  ⟨(g.entries.filter (·.1 ∉ removed)).map fun e => (e.1, e.2.filter (· ∉ removed))⟩

/-- There is an edge from producer to consumer. -/
def Edge (g : Graph) (producer consumer : String) : Prop :=
  ∃ e ∈ g.entries, e.1 = producer ∧ consumer ∈ e.2

theorem mem_producers {g : Graph} {x y : String} : y ∈ g.producers x ↔ g.Edge y x := by
  constructor
  · intro h
    obtain ⟨e, he, rfl⟩ := List.mem_map.1 h
    obtain ⟨hm, hx⟩ := List.mem_filter.1 he
    exact ⟨e, hm, rfl, by simpa using hx⟩
  · rintro ⟨e, hm, rfl, hx⟩
    exact List.mem_map.2 ⟨e, List.mem_filter.2 ⟨hm, by simpa using hx⟩, rfl⟩

theorem mem_nodes_left {g : Graph} {x y : String} (h : g.Edge x y) : x ∈ g.nodes := by
  obtain ⟨e, hm, rfl, -⟩ := h
  exact Names.mem_ofList.2 (List.mem_flatMap.2 ⟨e, hm, List.mem_cons_self⟩)

theorem mem_nodes_right {g : Graph} {x y : String} (h : g.Edge x y) : y ∈ g.nodes := by
  obtain ⟨e, hm, -, hy⟩ := h
  exact Names.mem_ofList.2 (List.mem_flatMap.2 ⟨e, hm, List.mem_cons_of_mem _ hy⟩)

theorem mem_keys_of_edge {g : Graph} {x y : String} (h : g.Edge y x) : y ∈ g.keys := by
  obtain ⟨e, he, rfl, -⟩ := h
  exact List.mem_map.2 ⟨e, he, rfl⟩

/-- The nodes are the listed producers and what they produce for. -/
theorem mem_nodes_iff {g : Graph} {x : String} : x ∈ g.nodes ↔ x ∈ g.keys ∨ ∃ y, g.Edge y x := by
  constructor
  · intro h
    obtain ⟨e, he, hx⟩ := List.mem_flatMap.1 (Names.mem_ofList.1 h)
    rcases List.mem_cons.1 hx with rfl | hx
    · exact .inl (List.mem_map.2 ⟨e, he, rfl⟩)
    · exact .inr ⟨e.1, e, he, rfl, hx⟩
  · rintro (h | ⟨y, h⟩)
    · obtain ⟨e, he, rfl⟩ := List.mem_map.1 h
      exact Names.mem_ofList.2 (List.mem_flatMap.2 ⟨e, he, List.mem_cons_self⟩)
    · exact mem_nodes_right h

end Graph

end RulePlan
