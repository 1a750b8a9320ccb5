import Mathlib.Data.List.Sort
import Mathlib.Order.OrderDual

/-!
# RulePlan.Proofs.StableSort — sorting by a key leaves equals in place

A list that is sorted by one key after another is in lexicographic order of the keys, the last one
first. One step of it says: elements with equal keys stand as they stood before. They are in order
among themselves already, and sorting keeps every sublist that is in order.
-/

namespace RulePlan

variable {α β : Type} [LinearOrder β] {R : α → α → Prop} {l : List α}

theorem sortedByKey_trans (key : α → β) (a b c : α) (hab : decide (key a ≤ key b) = true)
    (hbc : decide (key b ≤ key c) = true) : decide (key a ≤ key c) = true :=
  decide_eq_true ((of_decide_eq_true hab).trans (of_decide_eq_true hbc))

theorem sortedByKey_total (key : α → β) (a b : α) :
    (decide (key a ≤ key b) || decide (key b ≤ key a)) = true := by
  simpa using le_total (key a) (key b)

/-- Sorting leaves the elements of one key as they are. -/
theorem filter_mergeSort_key (key : α → β) (l : List α) (v : β) :
    (l.mergeSort fun a b => decide (key a ≤ key b)).filter (decide <| key · = v)
      = l.filter (decide <| key · = v) := by
  have hequal : (l.filter (decide <| key · = v)).Pairwise fun a b =>
      decide (key a ≤ key b) = true := by
    refine List.pairwise_of_forall_mem_list fun a ha b hb => decide_eq_true ?_
    rw [of_decide_eq_true (List.mem_filter.1 ha).2, of_decide_eq_true (List.mem_filter.1 hb).2]
  have hsub := (List.sublist_mergeSort (sortedByKey_trans key) (sortedByKey_total key) hequal
    List.filter_sublist).filter (decide <| key · = v)
  simp only [List.filter_filter, Bool.and_self] at hsub
  exact (hsub.eq_of_length ((List.mergeSort_perm l _).symm.filter _).length_eq).symm

/-- A list sorted by a key is in order of the key, and elements of one key are in the order in which
they stood before. -/
theorem pairwise_mergeSort_key (key : α → β) (h : l.Pairwise R) :
    (l.mergeSort fun a b => decide (key a ≤ key b)).Pairwise fun a b =>
      key a < key b ∨ key a = key b ∧ R a b := by
  have hsorted := List.pairwise_mergeSort (sortedByKey_trans key) (sortedByKey_total key) l
  rw [List.pairwise_iff_forall_sublist] at hsorted h ⊢
  intro a b hab
  rcases (of_decide_eq_true (hsorted hab)).lt_or_eq with hlt | heq
  · exact .inl hlt
  · have hkept := hab.filter (decide <| key · = key b)
    have hboth : [a, b].filter (decide <| key · = key b) = [a, b] := by simp [heq]
    rw [filter_mergeSort_key, hboth] at hkept
    exact .inr ⟨heq, h (hkept.trans List.filter_sublist)⟩

/-- The same for a list that is sorted by a key downwards. -/
theorem pairwise_mergeSort_key_down (key : α → β) (h : l.Pairwise R) :
    (l.mergeSort fun a b => decide (key b ≤ key a)).Pairwise fun a b =>
      key b < key a ∨ key a = key b ∧ R a b :=
  pairwise_mergeSort_key (fun a => OrderDual.toDual (key a)) h

/-- A key and an order between equals make an order. -/
theorem asymm_of_key (key : α → β) (hasymm : ∀ {a b}, R a b → ¬R b a) {a b : α}
    (h : key a < key b ∨ key a = key b ∧ R a b) : ¬(key b < key a ∨ key b = key a ∧ R b a) := by
  rintro (hgt | ⟨heq, hba⟩)
  · rcases h with hlt | ⟨heq, -⟩
    · exact lt_asymm hlt hgt
    · exact hgt.ne heq.symm
  · rcases h with hlt | ⟨-, hab⟩
    · exact hlt.ne heq.symm
    · exact hasymm hab hba

theorem asymm_of_key_down (key : α → β) (hasymm : ∀ {a b}, R a b → ¬R b a) {a b : α}
    (h : key b < key a ∨ key a = key b ∧ R a b) : ¬(key a < key b ∨ key b = key a ∧ R b a) :=
  asymm_of_key (R := R) (fun a => OrderDual.toDual (key a)) hasymm h

/-- A list in a strict order is determined by its elements. -/
theorem eq_of_pairwise_of_mem_iff {l' : List α} (hasymm : ∀ {a b}, R a b → ¬R b a)
    (h : l.Pairwise R) (h' : l'.Pairwise R) (hmem : ∀ x, x ∈ l ↔ x ∈ l') : l = l' := by
  have hnodup : ∀ {m : List α}, m.Pairwise R → m.Nodup := by
    intro m hm
    refine hm.imp ?_
    rintro a _ hab rfl
    exact hasymm hab hab
  have hperm : l.Perm l' := (List.perm_ext_iff_of_nodup (hnodup h) (hnodup h')).2 hmem
  refine hperm.eq_of_pairwise ?_ h h'
  exact fun a b _ _ hab hba => absurd hba (hasymm hab)

end RulePlan
