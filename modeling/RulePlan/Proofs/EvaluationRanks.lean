import RulePlan.Proofs.OrderInvariance
import RulePlan.Proofs.StableSort

/-!
# RulePlan.Proofs.EvaluationRanks — what decides between the predicates of a block

The blocks say which predicates stand together, their ranks say in which order. A derived predicate
is ranked by the round in which it is peeled. That round is a length: a node of a later round has a
producer in the round just before, so some chain of producers has as many edges as rounds went by,
and no chain has more, since rounds grow along edges. Cyclic predicates are ranked by two numbers of
producers, taken in two graphs with other blocks removed; both are numbers of producers in the whole
graph, inside the cyclic block and outside the seeds.

Sorting is stable and starts from the names, so names decide between equals. A block in a strict
order is determined by its members, and so the ranks determine the whole order of evaluation.
-/

namespace RulePlan

open Relation

/-! ## Chains of producers -/

namespace Graph

variable {g : Graph}

/-- A chain of producers with a number of edges ends in the predicate. -/
inductive Chain (g : Graph) : Nat → String → Prop
  | start (x : String) : Chain g 0 x
  | step {n : Nat} {x y : String} (h : Chain g n y) (hedge : g.Edge y x) : Chain g (n + 1) x

/-- The longest chain of producers that ends in the predicate has a number of edges. -/
def Depth (g : Graph) (x : String) (n : Nat) : Prop := IsGreatest {k | g.Chain k x} n

/-- The predicate stands less deep than another one, or as deep and before it by name. -/
def Shallower (g : Graph) (a b : String) : Prop :=
  ∃ m n, g.Depth a m ∧ g.Depth b n ∧ (m < n ∨ m = n ∧ a < b)

theorem Shallower.asymm {a b : String} (h : g.Shallower a b) : ¬g.Shallower b a := by
  rintro ⟨n', m', hb', ha', hba⟩
  obtain ⟨m, n, ha, hb, hab⟩ := h
  obtain rfl := ha.unique ha'
  obtain rfl := hb.unique hb'
  rcases hab with hlt | ⟨heq, hlt⟩
  · rcases hba with hgt | ⟨heq, -⟩ <;> omega
  · rcases hba with hgt | ⟨-, hgt⟩
    · omega
    · exact lt_asymm hlt hgt

end Graph

namespace EvalOrder

variable {g : Graph}

/-- A node of a later round has a producer in the round before. -/
theorem exists_producer_of_round {round : Nat} {removed remaining : Names} :
    ∀ {x : String} {n : Nat}, (peel g round removed remaining).lookup x = some (n + 1) →
      round ≤ n → ∃ y, g.Edge y x ∧ (peel g round removed remaining).lookup y = some n := by
  fun_induction peel g round removed remaining with
  | case1 round removed remaining hnone =>
    intro x n h
    cases h
  | case2 round removed remaining hsome ih =>
    intro x n h hround
    simp only [lookup_round_append] at h ⊢
    split at h
    case isTrue hx =>
      obtain rfl : round = n + 1 := Option.some.inj h
      omega
    case isFalse hx =>
      obtain ⟨hwaiting, -, hproducers⟩ := peeled_after_producers h
      rcases Nat.lt_or_eq_of_le hround with hlt | rfl
      · obtain ⟨y, hedge, hy⟩ := ih h hlt
        have hready := (mem_waiting_iff.1 (peeled_after_producers hy).1).2
        exact ⟨y, hedge, (if_neg hready).trans hy⟩
      · -- some producer kept the node waiting in this round, and is gone in the next
        have hkept : ¬∀ y, g.Edge y x → y ∈ removed := fun hall =>
          hx (mem_ready_iff.2 ⟨(mem_waiting_iff.1 hwaiting).1, hall⟩)
        push Not at hkept
        obtain ⟨y, hedge, hy⟩ := hkept
        refine ⟨y, hedge, if_pos ?_⟩
        rcases hproducers y hedge with hgone | ⟨m, hm, hlater⟩
        · exact (List.mem_append.1 hgone).resolve_left hy
        · have hle := (peeled_after_producers hlater).2.1
          omega

section Blocks

variable {intensional negated : Names}

/-- Chains that end in a peeled predicate have no more edges than rounds went by. -/
theorem le_round_of_chain {k : Nat} {x : String} (h : g.Chain k x) :
    ∀ {n : Nat}, round? g intensional negated x = some n → k ≤ n := by
  induction h with
  | start x => exact fun _ => Nat.zero_le _
  | step _ hedge ih =>
    intro n hx
    -- the producer went in an earlier round, so the last edge is paid for
    obtain ⟨m, hm, hround⟩ := exists_round_lt (.single hedge) hx
    exact Nat.succ_le_of_lt (Nat.lt_of_le_of_lt (ih hround) hm)

theorem chain_of_round {n : Nat} :
    ∀ {x : String}, round? g intensional negated x = some n → g.Chain n x := by
  induction n with
  | zero => exact fun {x} _ => .start x
  | succ n ih =>
    intro x hx
    obtain ⟨y, hedge, hy⟩ := exists_producer_of_round hx (Nat.zero_le n)
    exact .step (ih hy) hedge

/-- The round of a predicate is its depth. -/
theorem depth_of_round {x : String} {n : Nat} (h : round? g intensional negated x = some n) :
    g.Depth x n :=
  ⟨chain_of_round h, fun _ hchain => le_round_of_chain hchain h⟩

/-! ## Numbers of producers -/

/-- Once some nodes are gone, as many producers are left as lie outside them. -/
theorem inDegree_eq_ncard (hg : g.keys.Nodup) (removed : Names) (x : String) :
    inDegree g removed x = {y | g.Edge y x ∧ y ∉ removed}.ncard := by
  have hset : {y | g.Edge y x ∧ y ∉ removed}
      = ↑((g.producers x).filter (· ∉ removed)).toFinset := by
    ext y
    simp [Graph.mem_producers]
  rw [hset, Set.ncard_coe_finset,
    List.toFinset_card_of_nodup ((Graph.nodup_producers hg x).filter _)]
  rfl

/-- The number of producers inside the cyclic block. -/
noncomputable def inside (o : EvalOrder) (g : Graph) (x : String) : Nat :=
  {y | g.Edge y x ∧ y ∈ o.cyclic}.ncard

/-- The number of producers outside the seeds. -/
noncomputable def outside (o : EvalOrder) (g : Graph) (x : String) : Nat :=
  {y | g.Edge y x ∧ y ∉ o.seeds}.ncard

/-- The predicate has more producers outside the seeds than another one, or as many and stands
before it by name. -/
def Farther (o : EvalOrder) (g : Graph) (a b : String) : Prop :=
  o.outside g b < o.outside g a ∨ o.outside g a = o.outside g b ∧ a < b

/-- The predicate has more producers inside the cyclic block than another one; or as many, and more
outside the seeds; or as many of both, and stands before the other by name. -/
def Heavier (o : EvalOrder) (g : Graph) (a b : String) : Prop :=
  o.inside g b < o.inside g a ∨ o.inside g a = o.inside g b ∧ o.Farther g a b

theorem Heavier.asymm {o : EvalOrder} {a b : String} (h : o.Heavier g a b) : ¬o.Heavier g b a := by
  have hfarther : ∀ {x y : String}, o.Farther g x y → ¬o.Farther g y x :=
    asymm_of_key_down (R := (· < ·)) (o.outside g) lt_asymm
  exact asymm_of_key_down (R := o.Farther g) (o.inside g) hfarther h

theorem inDegree_peeled (hg : g.keys.Nodup) (x : String) :
    inDegree g (peeled g intensional negated) x = (ofGraph g intensional negated).inside g x := by
  rw [inDegree_eq_ncard hg, inside]
  congr 1
  ext y
  refine and_congr_right fun hedge => ?_
  -- producers are keys of the graph, so those not peeled are in the cyclic block
  have hmember : y ∈ members g intensional negated :=
    mem_members_iff.2 (.inl (Graph.mem_keys_of_edge hedge))
  rw [mem_cyclic_iff, mem_peeled_iff]
  tauto

theorem inDegree_seeds (hg : g.keys.Nodup) (x : String) :
    inDegree g ((peeled g intensional negated).filter fun y => inDegree g [] y == 0) x
      = (ofGraph g intensional negated).outside g x := by
  rw [inDegree_eq_ncard hg, outside]
  congr 1
  ext y
  exact and_congr_right fun _ => not_congr seeds_perm.mem_iff.symm

/-! ## The order of a block -/

theorem pairwise_lt_members (hg : g.keys.Nodup) :
    (members g intensional negated).Pairwise (· < ·) :=
  Names.pairwise_lt_sorted (nodup_addAll (nodup_addAll hg _) _)

theorem pairwise_derived (hg : g.keys.Nodup) :
    (ofGraph g intensional negated).derived.Pairwise g.Shallower := by
  have hnames : ((peeled g intensional negated).filter fun x => inDegree g [] x != 0).Pairwise
      (· < ·) := (pairwise_lt_members hg).sublist (List.filter_sublist.trans List.filter_sublist)
  have hranked := pairwise_mergeSort_key (fun x => (round? g intensional negated x).getD 0) hnames
  refine List.Pairwise.imp_of_mem ?_ (show List.Pairwise _ (ofGraph g intensional negated).derived
    from hranked)
  intro a b ha hb hab
  have hround : ∀ x ∈ (ofGraph g intensional negated).derived,
      ∃ n, round? g intensional negated x = some n :=
    fun x hx => exists_round_iff.2 ⟨(mem_derived_iff.1 hx).1, (mem_derived_iff.1 hx).2.2⟩
  obtain ⟨m, hm⟩ := hround a ha
  obtain ⟨n, hn⟩ := hround b hb
  rw [hm, hn] at hab
  exact ⟨m, n, depth_of_round hm, depth_of_round hn, hab⟩

theorem pairwise_cyclic (hg : g.keys.Nodup) :
    (ofGraph g intensional negated).cyclic.Pairwise
      ((ofGraph g intensional negated).Heavier g) := by
  have hnames : ((members g intensional negated).filter
      (· ∉ peeled g intensional negated)).Pairwise (· < ·) :=
    (pairwise_lt_members hg).sublist List.filter_sublist
  -- each sort settles what the one after it leaves tied
  have houtside := pairwise_mergeSort_key_down
    (inDegree g ((peeled g intensional negated).filter fun y => inDegree g [] y == 0)) hnames
  have hinside := pairwise_mergeSort_key_down
    (inDegree g (peeled g intensional negated)) houtside
  refine List.Pairwise.imp ?_ (show List.Pairwise _ (ofGraph g intensional negated).cyclic
    from hinside)
  intro a b hab
  simp only [inDegree_peeled hg, inDegree_seeds hg] at hab
  exact hab

/-! ## Ranks -/

/-- A predicate to be ordered that has no producers. -/
def Root (g : Graph) (intensional negated : Names) (x : String) : Prop :=
  (x ∈ g.keys ∨ x ∈ intensional ∨ x ∈ negated) ∧ ∀ y, ¬g.Edge y x

/-- The predicate leads to a derived one. -/
def Feeds (o : EvalOrder) (g : Graph) (x : String) : Prop := ∃ y ∈ o.derived, TransGen g.Edge x y

/-- The order in which each block is listed. Of the predicates without producers, those that lead to
a derived one come first, and both parts are in order of name. Derived predicates are in order of
depth, then name. Cyclic ones are in order of the producers inside their block, then of those
outside the seeds, most first, then of name. -/
structure Ranks (o : EvalOrder) (g : Graph) (intensional negated : Names) : Prop where
  seeds : ∃ feeding others, o.seeds = feeding ++ others
    ∧ feeding.Pairwise (· < ·) ∧ others.Pairwise (· < ·)
    ∧ (∀ x, x ∈ feeding ↔ Root g intensional negated x ∧ o.Feeds g x)
    ∧ ∀ x, x ∈ others ↔ Root g intensional negated x ∧ ¬o.Feeds g x
  mem_derived : ∀ x, x ∈ o.derived ↔ (x ∈ g.keys ∨ x ∈ intensional ∨ x ∈ negated)
    ∧ (∃ y, g.Edge y x) ∧ ¬g.BehindCycle x
  depth : ∀ x ∈ o.derived, ∃ n, g.Depth x n
  derived : o.derived.Pairwise g.Shallower
  mem_cyclic : ∀ x, x ∈ o.cyclic ↔ (x ∈ g.keys ∨ x ∈ intensional ∨ x ∈ negated)
    ∧ g.BehindCycle x
  cyclic : o.cyclic.Pairwise (o.Heavier g)

theorem root_iff_mem_seeds {x : String} :
    Root g intensional negated x ↔ x ∈ (ofGraph g intensional negated).seeds := by
  rw [mem_seeds_iff, mem_members_iff, Root]

/-- The predicates that lead to a derived one. -/
def feeding (g : Graph) (intensional negated : Names) : List String :=
  (ofGraph g intensional negated).derived.flatMap g.predecessors

theorem seeds_ofGraph :
    (ofGraph g intensional negated).seeds
      = ((peeled g intensional negated).filter fun x => inDegree g [] x == 0).filter
          (· ∈ feeding g intensional negated)
        ++ ((peeled g intensional negated).filter fun x => inDegree g [] x == 0).filter
          (· ∉ feeding g intensional negated) := by
  have hfeeding : feeding g intensional negated = (ofGraph g intensional negated).derived.flatMap
      fun x => (g.predecessorTable.lookup x).getD [] := by
    simp only [feeding, Graph.getD_lookup_predecessorTable]
  rw [hfeeding]
  rfl

theorem mem_feeding_iff {x : String} (hx : x ∈ (ofGraph g intensional negated).seeds) :
    x ∈ feeding g intensional negated ↔ (ofGraph g intensional negated).Feeds g x := by
  rw [feeding, List.mem_flatMap, Feeds]
  refine exists_congr fun y => and_congr_right fun hy => ?_
  -- predecessors are other nodes, and a seed is no derived predicate
  refine Graph.mem_predecessors_iff.trans (and_iff_right ?_)
  rintro rfl
  obtain ⟨z, hedge⟩ := (mem_derived_iff.1 hy).2.1
  exact (mem_seeds_iff.1 hx).2 z hedge

theorem ofGraph_ranks (hg : g.keys.Nodup) (intensional negated : Names) :
    (ofGraph g intensional negated).Ranks g intensional negated where
  seeds := by
    have hnames : ((peeled g intensional negated).filter fun x => inDegree g [] x == 0).Pairwise
        (· < ·) := (pairwise_lt_members hg).sublist (List.filter_sublist.trans List.filter_sublist)
    refine ⟨_, _, seeds_ofGraph, hnames.sublist List.filter_sublist,
      hnames.sublist List.filter_sublist, ?_, ?_⟩
    · intro x
      rw [root_iff_mem_seeds, List.mem_filter, decide_eq_true_eq, ← seeds_perm.mem_iff]
      exact and_congr_right mem_feeding_iff
    · intro x
      rw [root_iff_mem_seeds, List.mem_filter, decide_eq_true_eq, ← seeds_perm.mem_iff]
      exact and_congr_right fun hx => not_congr (mem_feeding_iff hx)
  mem_derived := by
    intro x
    rw [mem_derived_iff, mem_members_iff]
  depth := by
    intro x hx
    obtain ⟨hmember, -, haway⟩ := mem_derived_iff.1 hx
    obtain ⟨n, hn⟩ := exists_round_iff.2 ⟨hmember, haway⟩
    exact ⟨n, depth_of_round hn⟩
  derived := pairwise_derived hg
  mem_cyclic := by
    intro x
    rw [mem_cyclic_iff, mem_members_iff]
  cyclic := pairwise_cyclic hg

/-- Orders with the same ranks are the same. -/
theorem Ranks.unique {o o' : EvalOrder} (h : o.Ranks g intensional negated)
    (h' : o'.Ranks g intensional negated) : o = o' := by
  have hderived : o.derived = o'.derived :=
    eq_of_pairwise_of_mem_iff Graph.Shallower.asymm h.derived h'.derived
      fun x => (h.mem_derived x).trans (h'.mem_derived x).symm
  have hseeds : o.seeds = o'.seeds := by
    obtain ⟨feeding, others, heq, hfeeding, hothers, hmem, hmemOthers⟩ := h.seeds
    obtain ⟨feeding', others', heq', hfeeding', hothers', hmem', hmemOthers'⟩ := h'.seeds
    have hfeeds : ∀ x, o.Feeds g x ↔ o'.Feeds g x := fun x => by rw [Feeds, Feeds, hderived]
    have hfront : feeding = feeding' :=
      eq_of_pairwise_of_mem_iff lt_asymm hfeeding hfeeding' fun x => by
        rw [hmem, hmem', hfeeds]
    have hback : others = others' :=
      eq_of_pairwise_of_mem_iff lt_asymm hothers hothers' fun x => by
        rw [hmemOthers, hmemOthers', hfeeds]
    rw [heq, heq', hfront, hback]
  have hcyclic : o.cyclic = o'.cyclic := by
    have hmem : ∀ x, x ∈ o.cyclic ↔ x ∈ o'.cyclic :=
      fun x => (h.mem_cyclic x).trans (h'.mem_cyclic x).symm
    -- the numbers that rank the block are read off the members of the blocks
    have hheavier : o'.Heavier g = o.Heavier g := by
      funext a b
      simp only [Heavier, Farther, inside, outside, hmem, hseeds]
    have hsorted' := h'.cyclic
    rw [hheavier] at hsorted'
    exact eq_of_pairwise_of_mem_iff Heavier.asymm h.cyclic hsorted' hmem
  cases o
  cases o'
  congr

/-- **The evaluation order is determined by the graph and the names.** Predicates without producers
are listed by name, those that lead to a derived predicate before the others. Derived predicates are
listed by the number of edges of the longest chain of producers that ends in them, then by name.
Cyclic ones are listed by the number of their producers inside the cyclic block, then by the number
of those outside the seeds, most first, then by name. No other order is of this form. -/
theorem ofGraph_eq_iff (hg : g.keys.Nodup) (intensional negated : Names) (o : EvalOrder) :
    ofGraph g intensional negated = o ↔ o.Ranks g intensional negated := by
  constructor
  · rintro rfl
    exact ofGraph_ranks hg intensional negated
  · exact fun h => (ofGraph_ranks hg intensional negated).unique h

/-- Two base predicates of which one feeds nothing derived, two derived predicates of one depth
behind a shorter chain, and a loop with a tail. -/
def layered : Graph :=
  ⟨[("zone", ["reach", "link"]), ("link", ["reach", "path"]), ("alone", []),
    ("win", ["win", "lost"]), ("lost", ["win"]), ("path", ["win", "end"])]⟩

theorem ofGraph_eq_layered :
    layered.keys.Nodup
      ∧ ofGraph layered ["reach", "end"] [] = ⟨["zone", "alone"], ["link", "path", "reach", "end"],
        ["win", "lost"]⟩
      ∧ (⟨["zone", "alone"], ["link", "path", "reach", "end"], ["win", "lost"]⟩ : EvalOrder).Ranks
        layered ["reach", "end"] [] := by
  have hkeys : layered.keys.Nodup := by decide
  have hnodes : Names.sorted (Names.addAll (Names.addAll layered.keys ["reach", "end"]) [])
      = ["alone", "end", "link", "lost", "path", "reach", "win", "zone"] := by
    rw [Names.sorted, List.mergeSort_eq_insertionSort (fun a b : String => a ≤ b)]
    decide +kernel
  have hrounds : peel layered 0 [] ["alone", "end", "link", "lost", "path", "reach", "win", "zone"]
      = [("alone", 0), ("zone", 0), ("link", 1), ("path", 2), ("reach", 2), ("end", 3)] := by
    decide +kernel
  have horder : ofGraph layered ["reach", "end"] [] = ⟨["zone", "alone"],
      ["link", "path", "reach", "end"], ["win", "lost"]⟩ := by
    simp only [ofGraph, hnodes, hrounds]
    cbv
  exact ⟨hkeys, horder, (ofGraph_eq_iff hkeys ["reach", "end"] [] _).1 horder⟩

end Blocks

end EvalOrder

end RulePlan
