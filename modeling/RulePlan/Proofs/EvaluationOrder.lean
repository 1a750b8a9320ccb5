import Mathlib
import RulePlan.EvalOrder
import RulePlan.Proofs.Reachability
import RulePlan.Proofs.StableSort
import RulePlan.SymbolTable

/-!
# RulePlan.Proofs.EvaluationOrder — the blocks of the evaluation order

Peeling takes a node once all its producers are gone. Two facts about one run of it carry the whole
theory: the producers of a peeled node are peeled in earlier rounds, and a node that is never peeled
keeps a producer that is never peeled either. The first makes rounds grow along paths, so nothing
that is peeled lies on a cycle or behind one. The second would lead back from an unpeeled node
without end, so among finitely many nodes it leads to a cycle. The blocks are therefore the nodes
without producers, the nodes behind a cycle and the rest, and in the first two blocks every node
stands after all that it is made from: the sort by rounds keeps that order, and moving seeds to the
front only permutes seeds.
-/

namespace RulePlan

open Relation

namespace Graph

variable {g : Graph}

/-! ## Producers and cycles -/

/-- The node lies on a cycle or can be reached from one. -/
def BehindCycle (g : Graph) (x : String) : Prop := ∃ c, TransGen g.Edge c c ∧ g.Reaches c x

theorem BehindCycle.of_reaches {x y : String} (h : g.BehindCycle y) (hyx : g.Reaches y x) :
    g.BehindCycle x := by
  obtain ⟨c, hcycle, hcy⟩ := h
  exact ⟨c, hcycle, hcy.trans hyx⟩

end Graph

namespace EvalOrder

variable {g : Graph}

/-! ## Peeling -/

theorem inDegree_eq_zero_iff {removed : Names} {x : String} :
    inDegree g removed x = 0 ↔ ∀ y, g.Edge y x → y ∈ removed := by
  unfold inDegree
  rw [List.length_eq_zero_iff, List.filter_eq_nil_iff]
  simp only [Graph.mem_producers, decide_eq_true_eq, Decidable.not_not]

theorem mem_ready_iff {removed remaining : Names} {x : String} :
    x ∈ ready g removed remaining ↔ x ∈ remaining ∧ ∀ y, g.Edge y x → y ∈ removed := by
  unfold ready
  rw [List.mem_filter, beq_iff_eq, inDegree_eq_zero_iff]

theorem mem_waiting_iff {removed remaining : Names} {x : String} :
    x ∈ waiting g removed remaining ↔ x ∈ remaining ∧ x ∉ ready g removed remaining := by
  unfold waiting ready
  rw [List.mem_filter, List.mem_filter, bne_iff_ne, beq_iff_eq]
  tauto

/-- The round of a node: that of the nodes that are ready, or a later one. -/
theorem lookup_round_append (nodes : Names) (round : Nat) (later : List (String × Nat))
    (x : String) :
    (nodes.map (·, round) ++ later).lookup x
      = if x ∈ nodes then some round else later.lookup x := by
  rw [List.lookup_append]
  split
  case isTrue hx => rw [List.lookup_graph (fun _ => round) hx, Option.some_or]
  case isFalse hx =>
    have hnone : (nodes.map (·, round)).lookup x = none := by
      rw [List.lookup_eq_none_iff]
      intro e he
      obtain ⟨y, hy, rfl⟩ := List.mem_map.1 he
      simpa using fun h : x = y => hx (h ▸ hy)
    rw [hnone, Option.none_or]

/-- A node that is peeled was there, and its producers are gone before: from the start, or in an
earlier round. -/
theorem peeled_after_producers {round : Nat} {removed remaining : Names} :
    ∀ {x : String} {n : Nat}, (peel g round removed remaining).lookup x = some n →
      x ∈ remaining ∧ round ≤ n ∧ ∀ y, g.Edge y x →
        y ∈ removed ∨ ∃ m < n, (peel g round removed remaining).lookup y = some m := by
  fun_induction peel g round removed remaining with
  | case1 round removed remaining hnone =>
    intro x n h
    cases h
  | case2 round removed remaining hsome ih =>
    intro x n h
    simp only [lookup_round_append] at h ⊢
    split at h
    case isTrue hx =>
      obtain rfl : round = n := Option.some.inj h
      obtain ⟨hremaining, hproducers⟩ := mem_ready_iff.1 hx
      exact ⟨hremaining, Nat.le_refl round, fun y hy => .inl (hproducers y hy)⟩
    case isFalse hx =>
      obtain ⟨hwaiting, hround, hproducers⟩ := ih h
      refine ⟨(mem_waiting_iff.1 hwaiting).1, Nat.le_of_succ_le hround, fun y hy => ?_⟩
      rcases hproducers y hy with hgone | ⟨m, hm, hlookup⟩
      · rcases List.mem_append.1 hgone with hgone | hready
        · exact .inl hgone
        · exact .inr ⟨round, hround, if_pos hready⟩
      · by_cases hready : y ∈ ready g removed remaining
        · exact .inr ⟨round, hround, if_pos hready⟩
        · exact .inr ⟨m, hm, (if_neg hready).trans hlookup⟩

/-- A node that is never peeled keeps a producer that is never peeled. -/
theorem exists_unpeeled_producer {round : Nat} {removed remaining : Names} :
    ∀ {x : String}, x ∈ remaining → (peel g round removed remaining).lookup x = none →
      ∃ y, g.Edge y x ∧ y ∉ removed ∧ (peel g round removed remaining).lookup y = none := by
  fun_induction peel g round removed remaining with
  | case1 round removed remaining hnone =>
    intro x hx _
    have hwait : ¬∀ y, g.Edge y x → y ∈ removed := by
      intro hproducers
      have hready := mem_ready_iff.2 ⟨hx, hproducers⟩
      rw [hnone] at hready
      exact List.not_mem_nil hready
    push Not at hwait
    obtain ⟨y, hedge, hy⟩ := hwait
    exact ⟨y, hedge, hy, rfl⟩
  | case2 round removed remaining hsome ih =>
    intro x hx h
    simp only [lookup_round_append] at h ⊢
    split at h
    case isTrue => cases h
    case isFalse hready =>
      obtain ⟨y, hedge, hy, hlookup⟩ := ih (mem_waiting_iff.2 ⟨hx, hready⟩) h
      rw [List.mem_append, not_or] at hy
      exact ⟨y, hedge, hy.1, (if_neg hy.2).trans hlookup⟩

/-! ## Members and rounds -/

section Blocks

variable {intensional negated : Names}

/-- The predicates to be ordered, by name. -/
def members (g : Graph) (intensional negated : Names) : Names :=
  Names.sorted (Names.addAll (Names.addAll g.keys intensional) negated)

/-- The round in which a predicate is peeled, if it is. -/
def round? (g : Graph) (intensional negated : Names) (x : String) : Option Nat :=
  (peel g 0 [] (members g intensional negated)).lookup x

theorem mem_members_iff {x : String} :
    x ∈ members g intensional negated ↔ x ∈ g.keys ∨ x ∈ intensional ∨ x ∈ negated := by
  unfold members
  rw [Names.mem_sorted, Names.mem_addAll, Names.mem_addAll, or_assoc]

theorem nodup_add {s : Names} (hs : s.Nodup) (x : String) : (Names.add s x).Nodup := by
  unfold Names.add
  split
  case isTrue => exact hs
  case isFalse hx => exact SymbolTable.nodup_append_singleton hs hx

theorem nodup_addAll {s : Names} (hs : s.Nodup) (names : List String) :
    (Names.addAll s names).Nodup := by
  induction names generalizing s with
  | nil => exact hs
  | cons x names ih => exact ih (nodup_add hs x)

theorem nodup_members (hg : g.keys.Nodup) : (members g intensional negated).Nodup := by
  have hall : (Names.addAll (Names.addAll g.keys intensional) negated).Nodup :=
    nodup_addAll (nodup_addAll hg intensional) negated
  exact (List.mergeSort_perm _ _).nodup_iff.2 hall

/-- Rounds grow along paths, and what leads to a peeled node is peeled. -/
theorem exists_round_lt {x y : String} (h : TransGen g.Edge y x) {n : Nat}
    (hx : round? g intensional negated x = some n) :
    ∃ m < n, round? g intensional negated y = some m := by
  have hstep : ∀ {a b : String} {k : Nat}, g.Edge a b → round? g intensional negated b = some k →
      ∃ m < k, round? g intensional negated a = some m := by
    intro a b k hedge hb
    exact ((peeled_after_producers hb).2.2 a hedge).resolve_left List.not_mem_nil
  induction h using TransGen.head_induction_on with
  | single hedge => exact hstep hedge hx
  | head hedge _ ih =>
    obtain ⟨m, hm, hround⟩ := ih
    obtain ⟨k, hk, hlast⟩ := hstep hedge hround
    exact ⟨k, Nat.lt_trans hk hm, hlast⟩

theorem not_behindCycle_of_round {x : String} {n : Nat}
    (hx : round? g intensional negated x = some n) : ¬g.BehindCycle x := by
  rintro ⟨c, hcycle, hreach⟩
  have hc : ∃ m, round? g intensional negated c = some m := by
    rcases reflTransGen_iff_eq_or_transGen.1 hreach with rfl | hpath
    · exact ⟨n, hx⟩
    · obtain ⟨m, -, hm⟩ := exists_round_lt hpath hx
      exact ⟨m, hm⟩
  obtain ⟨m, hm⟩ := hc
  obtain ⟨k, hk, hround⟩ := exists_round_lt hcycle hm
  rw [hm] at hround
  exact Nat.lt_irrefl _ (Option.some.inj hround ▸ hk)

/-- The predicates to be ordered that no cycle leads to. -/
abbrev Away (g : Graph) (intensional negated : Names) : Type :=
  {x // x ∈ members g intensional negated ∧ ¬g.BehindCycle x}

/-- Away from cycles there is no endless way back. -/
theorem wellFounded_away :
    WellFounded fun a b : Away g intensional negated => TransGen g.Edge a.1 b.1 := by
  have hfinite : {x | x ∈ members g intensional negated ∧ ¬g.BehindCycle x}.Finite :=
    (List.finite_toSet (members g intensional negated)).subset fun _ hx => hx.1
  have : Finite (Away g intensional negated) := hfinite.to_subtype
  have : IsTrans _ fun a b : Away g intensional negated => TransGen g.Edge a.1 b.1 :=
    ⟨fun _ _ _ => TransGen.trans⟩
  have : Std.Irrefl fun a b : Away g intensional negated => TransGen g.Edge a.1 b.1 :=
    ⟨fun a ha => a.2.2 ⟨a.1, ha, .refl⟩⟩
  exact Finite.wellFounded_of_trans_of_irrefl _

/-- A predicate is peeled in some round iff it is to be ordered and no cycle leads to it. -/
theorem exists_round_iff {x : String} :
    (∃ n, round? g intensional negated x = some n) ↔
      x ∈ members g intensional negated ∧ ¬g.BehindCycle x := by
  constructor
  · rintro ⟨n, hn⟩
    exact ⟨(peeled_after_producers hn).1, not_behindCycle_of_round hn⟩
  · intro hx
    suffices hall : ∀ z : Away g intensional negated,
        ∃ n, round? g intensional negated z.1 = some n from hall ⟨x, hx⟩
    intro z
    induction z using wellFounded_away.induction with
    | h z ih =>
      obtain ⟨z, hz, hcycle⟩ := z
      cases hround : round? g intensional negated z with
      | some n => exact ⟨n, rfl⟩
      | none =>
        -- the producer that is left is itself away from cycles, so it is peeled after all
        obtain ⟨y, hedge, -, hy⟩ := exists_unpeeled_producer hz hround
        have hmember : y ∈ members g intensional negated :=
          mem_members_iff.2 (.inl (Graph.mem_keys_of_edge hedge))
        have haway : ¬g.BehindCycle y := fun h => hcycle (h.of_reaches (.single hedge))
        obtain ⟨n, hn⟩ := ih ⟨y, hmember, haway⟩ (.single hedge)
        exact absurd (hy.symm.trans hn) nofun

/-! ## The blocks -/

theorem sortByNumber_perm (down : Bool) (key : String → Nat) (l : List String) :
    (sortByNumber down key l).Perm l :=
  List.mergeSort_perm l _

theorem pairwise_sortByNumber (key : String → Nat) (l : List String) :
    (sortByNumber false key l).Pairwise fun a b => key a ≤ key b := by
  exact (List.pairwise_mergeSort (sortedByKey_trans key) (sortedByKey_total key) l).imp
    of_decide_eq_true

/-- The nodes that are peeled, by name. -/
def peeled (g : Graph) (intensional negated : Names) : Names :=
  (members g intensional negated).filter fun x => (round? g intensional negated x).isSome

theorem mem_peeled_iff {x : String} :
    x ∈ peeled g intensional negated ↔
      x ∈ members g intensional negated ∧ ¬g.BehindCycle x := by
  unfold peeled
  rw [List.mem_filter, Option.isSome_iff_exists, exists_round_iff, and_self_left]

theorem derived_ofGraph :
    (ofGraph g intensional negated).derived
      = sortByNumber false (fun x => (round? g intensional negated x).getD 0)
        ((peeled g intensional negated).filter fun x => inDegree g [] x != 0) := rfl

theorem seeds_perm : (ofGraph g intensional negated).seeds.Perm
    ((peeled g intensional negated).filter fun x => inDegree g [] x == 0) := by
  unfold ofGraph
  simp only [decide_not]
  exact List.filter_append_perm _ _

theorem derived_perm : (ofGraph g intensional negated).derived.Perm
    ((peeled g intensional negated).filter fun x => !(inDegree g [] x == 0)) :=
  sortByNumber_perm _ _ _

theorem cyclic_perm : (ofGraph g intensional negated).cyclic.Perm
    ((members g intensional negated).filter (· ∉ peeled g intensional negated)) :=
  (sortByNumber_perm _ _ _).trans (sortByNumber_perm _ _ _)

/-- The blocks share out the predicates to be ordered. -/
theorem all_perm : (ofGraph g intensional negated).all.Perm (members g intensional negated) := by
  have hsplit : (peeled g intensional negated ++
      (members g intensional negated).filter (· ∉ peeled g intensional negated)).Perm
        (members g intensional negated) := by
    have hpeeled : (members g intensional negated).filter (· ∈ peeled g intensional negated)
        = peeled g intensional negated := by
      conv_rhs => unfold peeled
      refine List.filter_congr fun x hx => ?_
      rw [Bool.eq_iff_iff, decide_eq_true_eq, peeled, List.mem_filter]
      exact and_iff_right hx
    have happend := List.filter_append_perm (· ∈ peeled g intensional negated)
      (members g intensional negated)
    simpa only [hpeeled, decide_not] using happend
  exact ((seeds_perm.append derived_perm).trans (List.filter_append_perm _ _)).append
    cyclic_perm |>.trans hsplit

theorem mem_seeds_iff {x : String} : x ∈ (ofGraph g intensional negated).seeds ↔
    x ∈ members g intensional negated ∧ ∀ y, ¬g.Edge y x := by
  rw [seeds_perm.mem_iff, List.mem_filter, mem_peeled_iff, beq_iff_eq, inDegree_eq_zero_iff]
  simp only [List.not_mem_nil]
  constructor
  · rintro ⟨⟨hx, -⟩, hnone⟩
    exact ⟨hx, hnone⟩
  · rintro ⟨hx, hnone⟩
    refine ⟨⟨hx, ?_⟩, hnone⟩
    -- a path from a cycle ends in an edge, and so does the cycle itself
    rintro ⟨c, hcycle, hreach⟩
    obtain ⟨y, -, hedge⟩ := TransGen.tail'_iff.1 (hcycle.trans_left hreach)
    exact hnone y hedge

theorem mem_derived_iff {x : String} : x ∈ (ofGraph g intensional negated).derived ↔
    x ∈ members g intensional negated ∧ (∃ y, g.Edge y x) ∧ ¬g.BehindCycle x := by
  rw [derived_perm.mem_iff, List.mem_filter, mem_peeled_iff, Bool.not_eq_true', beq_eq_false_iff_ne,
    Ne, inDegree_eq_zero_iff]
  simp only [List.not_mem_nil, imp_false, not_forall, not_not]
  tauto

theorem mem_cyclic_iff {x : String} : x ∈ (ofGraph g intensional negated).cyclic ↔
    x ∈ members g intensional negated ∧ g.BehindCycle x := by
  rw [cyclic_perm.mem_iff, List.mem_filter, decide_eq_true_eq, mem_peeled_iff]
  tauto

/-! ## Order of evaluation -/

/-- `y` stands somewhere before `x`. -/
def Before (order : List String) (y x : String) : Prop :=
  ∃ front middle back, order = front ++ y :: middle ++ x :: back

theorem Before.append_right {order : List String} {y x : String} (h : Before order y x)
    (more : List String) : Before (order ++ more) y x := by
  obtain ⟨front, middle, back, rfl⟩ := h
  exact ⟨front, middle, back ++ more, by simp⟩

theorem Before.append_left {order : List String} {y x : String} (h : Before order y x)
    (less : List String) : Before (less ++ order) y x := by
  obtain ⟨front, middle, back, rfl⟩ := h
  exact ⟨less ++ front, middle, back, by simp⟩

theorem before_append_of_mem {left right : List String} {y x : String} (hy : y ∈ left)
    (hx : x ∈ right) : Before (left ++ right) y x := by
  obtain ⟨front, middle, rfl⟩ := List.append_of_mem hy
  obtain ⟨gap, back, rfl⟩ := List.append_of_mem hx
  exact ⟨front, middle ++ gap, back, by simp⟩

/-- In a list sorted by a number, smaller numbers stand first. -/
theorem before_of_pairwise {key : String → Nat} {l : List String}
    (hl : l.Pairwise fun a b => key a ≤ key b) {y x : String} (hy : y ∈ l) (hx : x ∈ l)
    (hlt : key y < key x) : Before l y x := by
  obtain ⟨front, back, rfl⟩ := List.append_of_mem hy
  rcases List.mem_append.1 hx with hfront | hback
  · have hle := (List.pairwise_append.1 hl).2.2 x hfront y List.mem_cons_self
    exact absurd hlt (Nat.not_lt.2 hle)
  · rcases List.mem_cons.1 hback with rfl | hback
    · exact absurd hlt (Nat.lt_irrefl _)
    · have hsingle : Before ([y] ++ back) y x := before_append_of_mem List.mem_cons_self hback
      exact hsingle.append_left front

/-- Whatever leads to a derived predicate is a seed, or a derived predicate of an earlier round. -/
theorem before_of_transGen {x y : String} (hx : x ∈ (ofGraph g intensional negated).derived)
    (h : TransGen g.Edge y x) : Before (ofGraph g intensional negated).all y x := by
  obtain ⟨hmember, -, hcycle⟩ := mem_derived_iff.1 hx
  obtain ⟨n, hn⟩ := exists_round_iff.2 ⟨hmember, hcycle⟩
  obtain ⟨m, hm, hround⟩ := exists_round_lt h hn
  obtain ⟨hy, haway⟩ := exists_round_iff.1 ⟨m, hround⟩
  unfold all
  refine Before.append_right ?_ _
  by_cases hseed : ∀ z, ¬g.Edge z y
  · exact before_append_of_mem (mem_seeds_iff.2 ⟨hy, hseed⟩) hx
  · push Not at hseed
    have hderived := mem_derived_iff.2 ⟨hy, hseed, haway⟩
    refine Before.append_left ?_ _
    rw [derived_ofGraph] at hx hderived ⊢
    refine before_of_pairwise (pairwise_sortByNumber _ _) hderived hx ?_
    rw [hround, hn]
    exact hm

/-- What an order of evaluation owes to the graph: it lists every predicate once; seeds are those
without producers, cyclic ones those on a cycle or reachable from one, derived ones the others; and
whatever leads to a seed or to a derived predicate stands before it. -/
structure Arranges (o : EvalOrder) (g : Graph) (intensional negated : Names) : Prop where
  nodup : o.all.Nodup
  mem_all : ∀ x, x ∈ o.all ↔ x ∈ g.keys ∨ x ∈ intensional ∨ x ∈ negated
  seeds : ∀ x, x ∈ o.seeds ↔ x ∈ o.all ∧ ∀ y, ¬g.Edge y x
  cyclic : ∀ x, x ∈ o.cyclic ↔ x ∈ o.all ∧ g.BehindCycle x
  derived : ∀ x, x ∈ o.derived ↔ x ∈ o.all ∧ x ∉ o.seeds ∧ x ∉ o.cyclic
  transitive : ∀ x, x ∈ o.seeds ∨ x ∈ o.derived →
    ∀ y, y ∈ g.predecessors x ↔ TransGen g.Edge y x
  before : ∀ x, x ∈ o.seeds ∨ x ∈ o.derived → ∀ y ∈ g.predecessors x, Before o.all y x

/-- **The evaluation order arranges every graph**, whatever predicates are intensional or
negated. -/
theorem ofGraph_arranges (hg : g.keys.Nodup) (intensional negated : Names) :
    (ofGraph g intensional negated).Arranges g intensional negated where
  nodup := all_perm.nodup_iff.2 (nodup_members hg)
  mem_all := by
    intro x
    rw [all_perm.mem_iff, mem_members_iff]
  seeds := by
    intro x
    rw [all_perm.mem_iff, mem_seeds_iff]
  cyclic := by
    intro x
    rw [all_perm.mem_iff, mem_cyclic_iff]
  derived := by
    intro x
    rw [all_perm.mem_iff, mem_seeds_iff, mem_cyclic_iff, mem_derived_iff]
    constructor
    · rintro ⟨hx, ⟨y, hedge⟩, hcycle⟩
      exact ⟨hx, fun hseed => hseed.2 y hedge, fun h => hcycle h.2⟩
    · rintro ⟨hx, hseed, hcycle⟩
      refine ⟨hx, ?_, fun h => hcycle ⟨hx, h⟩⟩
      by_contra hnone
      exact hseed ⟨hx, fun y hedge => hnone ⟨y, hedge⟩⟩
  transitive := by
    intro x hx y
    rw [Graph.mem_predecessors_iff]
    refine and_iff_right_of_imp ?_
    -- outside the cyclic block no predicate leads to itself
    rintro hpath rfl
    rcases hx with hseed | hderived
    · obtain ⟨z, -, hedge⟩ := TransGen.tail'_iff.1 hpath
      exact (mem_seeds_iff.1 hseed).2 z hedge
    · exact (mem_derived_iff.1 hderived).2.2 ⟨y, hpath, .refl⟩
  before := by
    intro x hx y hy
    have hpath := (Graph.mem_predecessors_iff.1 hy).2
    rcases hx with hseed | hderived
    · obtain ⟨z, -, hedge⟩ := TransGen.tail'_iff.1 hpath
      exact absurd hedge ((mem_seeds_iff.1 hseed).2 z)
    · exact before_of_transGen hderived hpath

/-- A base predicate, a derived one, a loop and what hangs on the loop. -/
def looped : Graph :=
  ⟨[("edge", ["link"]), ("link", ["path"]), ("win", ["win", "lost"]), ("lost", ["end"])]⟩

/-- What hangs on the loop counts as cyclic, and every block is in use. -/
theorem ofGraph_arranges_looped :
    looped.keys.Nodup
      ∧ ofGraph looped ["path", "win"] ["lost"] = ⟨["edge"], ["link", "path"], ["lost", "win"]⟩
      ∧ (⟨["edge"], ["link", "path"], ["lost", "win"]⟩ : EvalOrder).Arranges looped
        ["path", "win"] ["lost"] := by
  have hkeys : looped.keys.Nodup := by decide
  have hnodes : Names.sorted (Names.addAll (Names.addAll looped.keys ["path", "win"]) ["lost"])
      = ["edge", "link", "lost", "path", "win"] := by
    rw [Names.sorted, List.mergeSort_eq_insertionSort (fun a b : String => a ≤ b)]
    decide +kernel
  have hrounds : peel looped 0 [] ["edge", "link", "lost", "path", "win"]
      = [("edge", 0), ("link", 1), ("path", 2)] := by decide +kernel
  have horder : ofGraph looped ["path", "win"] ["lost"]
      = ⟨["edge"], ["link", "path"], ["lost", "win"]⟩ := by
    simp only [ofGraph, hnodes, hrounds]
    cbv
  exact ⟨hkeys, horder, horder ▸ ofGraph_arranges hkeys ["path", "win"] ["lost"]⟩

end Blocks

end EvalOrder

end RulePlan
