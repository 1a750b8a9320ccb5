import RulePlan.Proofs.EvaluationOrder

/-!
# RulePlan.Proofs.OrderInvariance — the evaluation order is read off sets

A graph lists its producers and their consumers in the order in which they were met. None of that
shows in the evaluation order: it starts from the members sorted by name, counts producers, and
asks for predecessors, and all three are the same for two graphs that have the same producers and
the same edges. Peeling and every sort that follows then run on equal data.
-/

namespace RulePlan

/-! ## Sets of names in order -/

namespace Names

theorem pairwise_sorted (names : List String) : (sorted names).Pairwise (· ≤ ·) :=
  List.pairwise_mergeSort' (· ≤ ·) names

theorem pairwise_lt_sorted {names : List String} (h : names.Nodup) :
    (sorted names).Pairwise (· < ·) :=
  (pairwise_sorted names).imp₂ (fun _ _ => lt_of_le_of_ne)
    ((List.mergeSort_perm _ _).nodup_iff.2 h)

/-- Sorting forgets the order in which names were listed. -/
theorem sorted_eq_of_perm {a b : List String} (h : a.Perm b) : sorted a = sorted b := by
  refine List.Perm.eq_of_pairwise' (pairwise_sorted a) (pairwise_sorted b) ?_
  exact (List.mergeSort_perm a _).trans (h.trans (List.mergeSort_perm b _).symm)

theorem sorted_eq_of_mem_iff {a b : List String} (ha : a.Nodup) (hb : b.Nodup)
    (h : ∀ x, x ∈ a ↔ x ∈ b) : sorted a = sorted b :=
  sorted_eq_of_perm ((List.perm_ext_iff_of_nodup ha hb).2 h)

theorem nodup_ofList (names : List String) : (ofList names).Nodup :=
  EvalOrder.nodup_addAll List.nodup_nil names

end Names

/-! ## Graphs with the same edges -/

/-- Graphs with the same producers and the same edges, each listing a producer once. -/
structure Graph.SameEdges (g g' : Graph) : Prop where
  nodup : g.keys.Nodup
  nodup' : g'.keys.Nodup
  keys : ∀ x, x ∈ g.keys ↔ x ∈ g'.keys
  edge : ∀ x y, g.Edge x y ↔ g'.Edge x y

namespace Graph

variable {g g' : Graph}

theorem nodup_producers (hg : g.keys.Nodup) (x : String) : (g.producers x).Nodup :=
  hg.sublist (List.filter_sublist.map Prod.fst)

theorem SameEdges.producers_perm (h : g.SameEdges g') (x : String) :
    (g.producers x).Perm (g'.producers x) := by
  refine (List.perm_ext_iff_of_nodup (nodup_producers h.nodup x) (nodup_producers h.nodup' x)).2 ?_
  intro y
  rw [mem_producers, mem_producers]
  exact h.edge y x

theorem SameEdges.mem_predecessors_iff (h : g.SameEdges g') {x y : String} :
    y ∈ g.predecessors x ↔ y ∈ g'.predecessors x := by
  have hedge : g.Edge = g'.Edge := by
    funext a b
    exact propext (h.edge a b)
  rw [Graph.mem_predecessors_iff, Graph.mem_predecessors_iff, hedge]

end Graph

namespace EvalOrder

variable {g g' : Graph} {intensional intensional' negated negated' : Names}

theorem inDegree_congr (h : g.SameEdges g') (removed : Names) (x : String) :
    inDegree g removed x = inDegree g' removed x :=
  ((h.producers_perm x).filter _).length_eq

/-- Peeling sees a graph through the numbers of producers alone. -/
theorem peel_congr (h : g.SameEdges g') (round : Nat) (removed remaining : Names) :
    peel g round removed remaining = peel g' round removed remaining := by
  have hready : ∀ removed remaining, ready g removed remaining = ready g' removed remaining := by
    intro removed remaining
    unfold ready
    simp only [inDegree_congr h]
  have hwaiting : ∀ removed remaining,
      waiting g removed remaining = waiting g' removed remaining := by
    intro removed remaining
    unfold waiting
    simp only [inDegree_congr h]
  fun_induction peel g round removed remaining with
  | case1 round removed remaining hnone =>
    rw [peel, dif_pos (hready removed remaining ▸ hnone)]
  | case2 round removed remaining hsome ih =>
    have hsome' : ¬ready g' removed remaining = [] := hready removed remaining ▸ hsome
    rw [ih, hready, hwaiting]
    conv_rhs => rw [peel, dif_neg hsome']

theorem members_congr (h : g.SameEdges g') (hi : ∀ x, x ∈ intensional ↔ x ∈ intensional')
    (hn : ∀ x, x ∈ negated ↔ x ∈ negated') :
    members g intensional negated = members g' intensional' negated' := by
  refine Names.sorted_eq_of_mem_iff (nodup_addAll (nodup_addAll h.nodup _) _)
    (nodup_addAll (nodup_addAll h.nodup' _) _) ?_
  intro x
  simp only [Names.mem_addAll, h.keys, hi, hn]

/-- The evaluation order is the same for graphs with the same edges and for sets with the same
members. -/
theorem ofGraph_congr (h : g.SameEdges g') (hi : ∀ x, x ∈ intensional ↔ x ∈ intensional')
    (hn : ∀ x, x ∈ negated ↔ x ∈ negated') :
    ofGraph g intensional negated = ofGraph g' intensional' negated' := by
  have hmembers := members_congr h hi hn
  unfold members at hmembers
  have hfeeding : ∀ (names : List String) (x : String),
      (x ∈ names.flatMap fun y => (g.predecessorTable.lookup y).getD [])
        ↔ x ∈ names.flatMap fun y => (g'.predecessorTable.lookup y).getD [] := by
    intro names x
    simp only [List.mem_flatMap, Graph.getD_lookup_predecessorTable]
    exact exists_congr fun y => and_congr_right fun _ => h.mem_predecessors_iff
  have hdegree : inDegree g = inDegree g' := by
    funext removed x
    exact inDegree_congr h removed x
  unfold ofGraph
  simp only [hmembers, peel_congr h, hdegree, hfeeding]

end EvalOrder

end RulePlan
