import Mathlib.Data.List.Basic
import Mathlib.Logic.Relation
import RulePlan.Graph.Reach

/-!
# RulePlan.Proofs.Reachability — paths, and the search for all that leads to a node

The consumers of a node are the ends of its edges, so what can be reached by following consumers is
what lies at the end of a path. The search behind a node follows producers, with a queue. It drops
the first name if it is the node itself or has been found, and otherwise finds it and queues its
producers. A name in front of the queue may have been queued many times, but it is found once, and a
name that is no node has no producers to queue: so every search ends, in whatever order producers
are queued. The node itself is never searched again, which loses nothing, because its producers are
what the search starts with. What is found is therefore every other node that leads to it, on paths
through the node or around cycles as well.
-/

namespace RulePlan

open Relation

namespace Graph

variable {g : Graph} {x y : String}

/-! ## Paths -/

/-- There is a path from one node to another, possibly of no steps. -/
def Reaches (g : Graph) : String → String → Prop := ReflTransGen g.Edge

theorem mem_consumers_iff (hg : g.keys.Nodup) {x y : String} : y ∈ g.consumers x ↔ g.Edge x y := by
  obtain ⟨entries⟩ := g
  induction entries with
  | nil => exact ⟨fun h => absurd h List.not_mem_nil, fun ⟨e, he, _⟩ => absurd he List.not_mem_nil⟩
  | cons entry entries ih =>
    obtain ⟨hfresh, hnodup⟩ := List.nodup_cons.1 hg
    unfold consumers
    rw [List.lookup_cons]
    by_cases hx : x = entry.1
    · subst hx
      rw [BEq.rfl]
      constructor
      · intro hy
        exact ⟨entry, List.mem_cons_self, rfl, hy⟩
      · rintro ⟨e, he, hkey, hy⟩
        rcases List.mem_cons.1 he with rfl | he
        · exact hy
        · exact absurd (hkey ▸ List.mem_map.2 ⟨e, he, rfl⟩) hfresh
    · have hne : (x == entry.1) = false := beq_eq_false_iff_ne.2 hx
      rw [hne]
      refine (ih hnodup).trans ⟨?_, ?_⟩
      · rintro ⟨e, he, hkey, hy⟩
        exact ⟨e, List.mem_cons_of_mem entry he, hkey, hy⟩
      · rintro ⟨e, he, hkey, hy⟩
        rcases List.mem_cons.1 he with rfl | he
        · exact absurd hkey.symm hx
        · exact ⟨e, he, hkey, hy⟩

/-! ## The search, turn by turn -/

/-- A turn of the search behind `x`, from a queue and the names found to the next. The producers of
a name are queued in any order. -/
inductive Turn (g : Graph) (x : String) : List String × Names → List String × Names → Prop
  | drop {p : String} {queue found : List String} (h : p = x ∨ p ∈ found) :
    Turn g x (p :: queue, found) (queue, found)
  | find {p : String} {queue found producers : List String} (hx : p ≠ x) (hnew : p ∉ found)
    (h : producers.Perm (g.producers p)) :
    Turn g x (p :: queue, found) (queue ++ producers, p :: found)

/-- Turns from one state to another, possibly none. -/
def Searches (g : Graph) (x : String) : List String × Names → List String × Names → Prop :=
  ReflTransGen (g.Turn x)

theorem producers_eq_nil (hx : x ∉ g.nodes) : g.producers x = [] := by
  refine List.eq_nil_iff_forall_not_mem.2 fun y hy => ?_
  exact hx (mem_nodes_right (mem_producers.1 hy))

/-- Every turn finds one of finitely many nodes or shortens the queue. -/
theorem wellFounded_turn (g : Graph) (x : String) : WellFounded fun b a => g.Turn x a b := by
  refine Subrelation.wf (r := InvImage (Prod.Lex (· < ·) (· < ·))
    fun s : List String × Names => (g.unfound s.2, s.1.length)) ?_ (InvImage.wf _ ?_)
  · intro b a hturn
    cases hturn with
    | drop h => exact Prod.Lex.right _ (Nat.lt_succ_self _)
    | @find p queue found producers hx hnew h =>
      by_cases hp : p ∈ g.nodes
      · exact Prod.Lex.left _ _ (length_outside_cons_lt hp hnew)
      · -- a name that is no node has no producers to queue
        rw [producers_eq_nil hp] at h
        rw [h.eq_nil, List.append_nil]
        exact Prod.Lex.right' _ (unfound_le (List.subset_cons_self p found)) (Nat.lt_succ_self _)
  · exact (Prod.lex Nat.lt_wfRel Nat.lt_wfRel).wf

/-- What every turn keeps: all names in the queue and all that were found lead to `x`, `x` was not
found, and the producers of `x` and of what was found have been queued or found. -/
structure Searching (g : Graph) (x : String) (s : List String × Names) : Prop where
  queue : ∀ y ∈ s.1, TransGen g.Edge y x
  found : ∀ y ∈ s.2, y ≠ x ∧ TransGen g.Edge y x
  producers : ∀ z, z = x ∨ z ∈ s.2 → ∀ y, g.Edge y z → y ∈ s.1 ∨ y = x ∨ y ∈ s.2

theorem searching_start {queue : List String} (h : queue.Perm (g.producers x)) :
    g.Searching x (queue, []) where
  queue y hy := .single (mem_producers.1 (h.mem_iff.1 hy))
  found y hy := absurd hy List.not_mem_nil
  producers z hz y hedge := by
    rw [or_iff_left List.not_mem_nil] at hz
    exact .inl (h.mem_iff.2 (mem_producers.2 (hz ▸ hedge)))

theorem Searching.turn {s t : List String × Names} (h : g.Searching x s) (hturn : g.Turn x s t) :
    g.Searching x t := by
  cases hturn with
  | drop hold =>
    refine ⟨fun y hy => h.queue y (List.mem_cons_of_mem _ hy), h.found, fun z hz y hedge => ?_⟩
    rcases h.producers z hz y hedge with hy | hy
    · rcases List.mem_cons.1 hy with rfl | hy
      · exact .inr hold
      · exact .inl hy
    · exact .inr hy
  | @find p queue found producers hx hnew hproducers =>
    have hp : TransGen g.Edge p x := h.queue p List.mem_cons_self
    have hmem : ∀ y, y ∈ producers ↔ g.Edge y p := fun y =>
      hproducers.mem_iff.trans mem_producers
    refine ⟨fun y hy => ?_, List.forall_mem_cons.2 ⟨⟨hx, hp⟩, h.found⟩, fun z hz y hedge => ?_⟩
    · rcases List.mem_append.1 hy with hy | hy
      · exact h.queue y (List.mem_cons_of_mem p hy)
      · exact .head ((hmem y).1 hy) hp
    · -- the producers of `p` are queued now, and those of the other names were before
      rw [List.mem_cons, or_left_comm] at hz
      rcases hz with rfl | hz
      · exact .inl (List.mem_append_right _ ((hmem y).2 hedge))
      · rcases h.producers z hz y hedge with hy | hy | hy
        · rcases List.mem_cons.1 hy with rfl | hy
          · exact .inr (.inr List.mem_cons_self)
          · exact .inl (List.mem_append_left _ hy)
        · exact .inr (.inl hy)
        · exact .inr (.inr (List.mem_cons_of_mem p hy))

theorem Searching.searches {s t : List String × Names} (h : g.Searching x s)
    (hrun : g.Searches x s t) : g.Searching x t := by
  induction hrun with
  | refl => exact h
  | tail _ hturn ih => exact ih.turn hturn

/-- With nothing left in the queue, all other nodes that lead to `x` have been found. -/
theorem Searching.mem_found_iff {found : Names} (h : g.Searching x ([], found)) :
    y ∈ found ↔ y ≠ x ∧ TransGen g.Edge y x := by
  have hclosed : ∀ z, z = x ∨ z ∈ found → ∀ y, g.Edge y z → y = x ∨ y ∈ found := fun z hz y hy =>
    (h.producers z hz y hy).resolve_left List.not_mem_nil
  -- along the path from its end, each node is a producer of `x` or of a name that was found
  have hall : TransGen g.Edge y x → y = x ∨ y ∈ found := by
    intro hpath
    induction hpath using TransGen.head_induction_on with
    | single hedge => exact hclosed x (.inl rfl) _ hedge
    | head hedge _ ih => exact hclosed _ ih _ hedge
  constructor
  · exact h.found y
  · rintro ⟨hne, hpath⟩
    exact (hall hpath).resolve_left hne

/-! ## Predecessors -/

/-- The worklist takes these turns: nothing in it is outside the nodes. -/
theorem searches_closure (x : String) {todo : List String} (found : Names)
    (htodo : ∀ y ∈ todo, y ∈ g.nodes) :
    ∃ result, closure g.producers g.nodes todo (found ++ [x]) = result ++ [x]
      ∧ g.Searches x (todo, found) ([], result) := by
  generalize hseen : found ++ [x] = seen
  fun_induction closure g.producers g.nodes todo seen generalizing found with
  | case1 seen => exact ⟨found, hseen.symm, .refl⟩
  | case2 p todo seen hp ih =>
    subst hseen
    have hmore : ∀ y ∈ todo ++ g.producers p, y ∈ g.nodes := by
      intro y hy
      rcases List.mem_append.1 hy with hy | hy
      · exact htodo y (List.mem_cons_of_mem p hy)
      · exact mem_nodes_left (mem_producers.1 hy)
    obtain ⟨result, hresult, hrun⟩ := ih (p :: found) hmore rfl
    rw [List.mem_append, not_or, List.mem_singleton] at hp
    exact ⟨result, hresult, .head (.find hp.2.2 hp.2.1 (.refl _)) hrun⟩
  | case3 p todo seen hp ih =>
    subst hseen
    obtain ⟨result, hresult, hrun⟩ := ih found (fun y hy => htodo y (List.mem_cons_of_mem p hy)) rfl
    -- `p` is a node, so it was dropped because it had been seen
    have hold : p ∈ found ++ [x] :=
      Decidable.byContradiction fun hnew => hp ⟨htodo p List.mem_cons_self, hnew⟩
    rw [List.mem_append, List.mem_singleton, or_comm] at hold
    exact ⟨result, hresult, .head (.drop hold) hrun⟩

theorem searches_predecessors (g : Graph) (x : String) :
    g.Searches x (g.producers x, []) ([], g.predecessors x) := by
  obtain ⟨result, hresult, hrun⟩ := searches_closure x []
    fun y hy => mem_nodes_left (mem_producers.1 hy)
  have hfound := ((searching_start (.refl (g.producers x))).searches hrun).found
  have hself : result.filter (· ≠ x) = result := by
    refine List.filter_eq_self.2 fun y hy => decide_eq_true (hfound y hy).1
  have hpredecessors : g.predecessors x = result := by
    rw [List.nil_append] at hresult
    rw [predecessors, predecessorsIn, hresult, List.filter_append, hself]
    simp
  rwa [hpredecessors]

/-- The predecessors of a node are the other nodes that lead to it in one or more steps. -/
theorem mem_predecessors_iff {x y : String} :
    y ∈ g.predecessors x ↔ y ≠ x ∧ TransGen g.Edge y x :=
  ((searching_start (.refl _)).searches (g.searches_predecessors x)).mem_found_iff

theorem lookup_predecessorTable (hx : x ∈ g.nodes) :
    g.predecessorTable.lookup x = some (g.predecessors x) :=
  List.lookup_graph _ hx

theorem lookup_predecessorTable_eq_none (hx : x ∉ g.nodes) :
    g.predecessorTable.lookup x = none := by
  refine List.lookup_eq_none_iff.2 fun e he => ?_
  obtain ⟨y, hy, rfl⟩ := List.mem_map.1 he
  exact bne_iff_ne.2 fun heq => hx (heq ▸ hy)

/-- The table has the predecessors of a node, and nothing behind other names. -/
theorem getD_lookup_predecessorTable (g : Graph) (x : String) :
    (g.predecessorTable.lookup x).getD [] = g.predecessors x := by
  by_cases hx : x ∈ g.nodes
  case pos => rw [lookup_predecessorTable hx, Option.getD_some]
  case neg =>
    rw [lookup_predecessorTable_eq_none hx, Option.getD_none, eq_comm,
      List.eq_nil_iff_forall_not_mem]
    -- nothing leads to a name that is no node
    intro y hy
    obtain ⟨z, -, hedge⟩ := TransGen.tail'_iff.1 (mem_predecessors_iff.1 hy).2
    exact hx (mem_nodes_right hedge)

theorem exists_lookup_predecessorTable_iff :
    (∃ names, g.predecessorTable.lookup x = some names) ↔ x ∈ g.nodes := by
  constructor
  · rintro ⟨names, hnames⟩
    by_contra hx
    rw [lookup_predecessorTable_eq_none hx] at hnames
    cases hnames
  · intro hx
    exact ⟨_, lookup_predecessorTable hx⟩

/-- **The search finds what leads to a node.** On every graph the table has an entry for the
producers and the consumers and for no other names, and the entry of `x` has the other nodes that
lead to `x` in one or more steps. It is the end of a search from the producers of `x`; no search can
go on for ever; and all searches from these producers, queued in whatever order, end with the same
nodes. -/
theorem predecessorTable_exact (g : Graph) :
    (∀ x, (∃ names, g.predecessorTable.lookup x = some names)
        ↔ x ∈ g.keys ∨ ∃ y, g.Edge y x)
      ∧ (∀ x y, y ∈ (g.predecessorTable.lookup x).getD [] ↔ y ≠ x ∧ TransGen g.Edge y x)
      ∧ ∀ x, g.Searches x (g.producers x, []) ([], (g.predecessorTable.lookup x).getD [])
        ∧ (WellFounded fun b a => g.Turn x a b)
        ∧ ∀ queue found, queue.Perm (g.producers x) → g.Searches x (queue, []) ([], found) →
          ∀ y, y ∈ found ↔ y ≠ x ∧ TransGen g.Edge y x := by
  refine ⟨fun x => ?_, fun x y => ?_, fun x => ⟨?_, wellFounded_turn g x, ?_⟩⟩
  · rw [exists_lookup_predecessorTable_iff, mem_nodes_iff]
  · rw [getD_lookup_predecessorTable, mem_predecessors_iff]
  · rw [getD_lookup_predecessorTable]
    exact searches_predecessors g x
  · intro queue found hqueue hrun y
    exact ((searching_start hqueue).searches hrun).mem_found_iff

end Graph

end RulePlan
