import Mathlib
import RulePlan.Proofs.Levels

/-!
# RulePlan.Proofs.Strata — the strata are the least layers

Renumbering lists the levels in use in ascending order, so the place of a level in that list grows
with the level and never exceeds it. The strata thus keep every constraint that the levels meet,
strict ones included, and stay below every assignment that the levels stay below.
-/

namespace RulePlan

namespace Layering

/-! ## The levels in use -/

/-- The levels in use, ascending and each once. -/
def used (levels : List Nat) : List Nat := levels.eraseDups.mergeSort

/-- The places at which a level stands, ascending. -/
def places (levels : List Nat) (level : Nat) : List Nat :=
  (levels.zipIdx.filter (·.1 == level)).map Prod.snd

theorem strataOf_eq (levels : List Nat) :
    strataOf levels = (used levels).zipIdx.map fun v => ⟨v.2, places levels v.1⟩ := rfl

theorem mem_used {levels : List Nat} {v : Nat} : v ∈ used levels ↔ v ∈ levels := by
  unfold used
  rw [List.mem_mergeSort, List.mem_eraseDups]

theorem nodup_eraseDups {α : Type} [BEq α] [LawfulBEq α] :
    (levels : List α) → levels.eraseDups.Nodup
  | [] => List.nodup_nil
  | v :: levels => by
    rw [List.eraseDups_cons, List.nodup_cons, List.mem_eraseDups]
    refine ⟨fun hv => ?_, nodup_eraseDups _⟩
    -- what follows `v` comes from the list with `v` filtered out
    have hne := (List.mem_filter.1 hv).2
    simp only [BEq.rfl, Bool.not_true, Bool.false_eq_true] at hne
termination_by levels => levels.length
decreasing_by exact Nat.lt_succ_of_le (List.length_filter_le _ levels)

theorem pairwise_used (levels : List Nat) : (used levels).Pairwise (· < ·) := by
  have hsorted : (used levels).Pairwise fun a b => decide (a ≤ b) = true := by
    apply List.pairwise_mergeSort
    · intro a b c hab hbc
      exact decide_eq_true (Nat.le_trans (of_decide_eq_true hab) (of_decide_eq_true hbc))
    · intro a b
      rw [Bool.or_eq_true, decide_eq_true_eq, decide_eq_true_eq]
      exact Nat.le_total a b
  have hnodup : (used levels).Nodup :=
    (List.mergeSort_perm _ _).nodup_iff.2 (nodup_eraseDups levels)
  refine hsorted.imp₂ ?_ hnodup
  intro a b hle hne
  exact Nat.lt_of_le_of_ne (of_decide_eq_true hle) hne

section Ascending

variable {xs : List Nat} {j k v w : Nat}

theorem lt_of_getElem?_lt (h : xs.Pairwise (· < ·)) (hj : xs[j]? = some v)
    (hk : xs[k]? = some w) (hjk : j < k) : v < w := by
  obtain ⟨hj', rfl⟩ := List.getElem?_eq_some_iff.1 hj
  obtain ⟨hk', rfl⟩ := List.getElem?_eq_some_iff.1 hk
  exact List.pairwise_iff_getElem.1 h j k hj' hk' hjk

/-- Places in an ascending list are ordered as the elements are. -/
theorem place_lt_iff (h : xs.Pairwise (· < ·)) (hj : xs[j]? = some v) (hk : xs[k]? = some w) :
    j < k ↔ v < w := by
  refine ⟨lt_of_getElem?_lt h hj hk, fun hvw => ?_⟩
  rcases Nat.lt_trichotomy j k with hjk | rfl | hkj
  · exact hjk
  · obtain rfl : v = w := Option.some.inj (hj.symm.trans hk)
    exact absurd hvw (Nat.lt_irrefl v)
  · exact absurd hvw (Nat.lt_asymm (lt_of_getElem?_lt h hk hj hkj))

/-- An element of an ascending list is no smaller than its place. -/
theorem place_le (h : xs.Pairwise (· < ·)) (hk : xs[k]? = some v) : k ≤ v := by
  induction k generalizing v with
  | zero => exact Nat.zero_le v
  | succ k ih =>
    obtain ⟨hlt, -⟩ := List.getElem?_eq_some_iff.1 hk
    have hprev : xs[k]? = some xs[k] := List.getElem?_eq_getElem (Nat.lt_of_succ_lt hlt)
    have hle := ih hprev
    have hstep := lt_of_getElem?_lt h hprev hk (Nat.lt_succ_self k)
    omega

end Ascending

theorem mem_places {levels : List Nat} {i v : Nat} : i ∈ places levels v ↔ levels[i]? = some v := by
  unfold places
  constructor
  · intro h
    obtain ⟨⟨w, j⟩, hmem, rfl⟩ := List.mem_map.1 h
    obtain ⟨hzip, hw⟩ := List.mem_filter.1 hmem
    rw [← eq_of_beq hw]
    exact List.mem_zipIdx_iff_getElem?.1 hzip
  · intro h
    refine List.mem_map.2 ⟨(v, i), List.mem_filter.2 ⟨?_, beq_iff_eq.2 rfl⟩, rfl⟩
    exact List.mem_zipIdx_iff_getElem?.2 h

theorem pairwise_places (levels : List Nat) (v : Nat) : (places levels v).Pairwise (· < ·) := by
  unfold places
  refine List.Pairwise.map Prod.snd (fun a b hab => hab) (List.Pairwise.filter _ ?_)
  have hrange : (levels.zipIdx.map Prod.snd).Pairwise (· < ·) := by
    rw [List.zipIdx_map_snd]
    exact List.pairwise_lt_range'
  exact List.pairwise_map.1 hrange

/-! ## The strata as a partition -/

/-- Strata number 0, 1, 2, … that share out the places below `n`: each stratum holds some, in
ascending order, and each place is in exactly one of them. -/
structure Partitions (n : Nat) (strata : List Stratum) : Prop where
  numbered : strata.map Stratum.index = List.range strata.length
  nonempty : ∀ s ∈ strata, s.rules ≠ []
  ascending : ∀ s ∈ strata, s.rules.Pairwise (· < ·)
  within : ∀ s ∈ strata, ∀ i ∈ s.rules, i < n
  unique : ∀ i < n, ∃ s, (s ∈ strata ∧ i ∈ s.rules) ∧ ∀ t, t ∈ strata ∧ i ∈ t.rules → t = s

theorem mem_strataOf {levels : List Nat} {s : Stratum} :
    s ∈ strataOf levels ↔ ∃ k v, (used levels)[k]? = some v ∧ s = ⟨k, places levels v⟩ := by
  rw [strataOf_eq, List.mem_map]
  constructor
  · rintro ⟨⟨v, k⟩, hmem, rfl⟩
    exact ⟨k, v, List.mem_zipIdx_iff_getElem?.1 hmem, rfl⟩
  · rintro ⟨k, v, hk, rfl⟩
    exact ⟨(v, k), List.mem_zipIdx_iff_getElem?.2 hk, rfl⟩

/-- The level of a place has its place among the levels in use. -/
theorem exists_used_of_lt {levels : List Nat} {i : Nat} (hi : i < levels.length) :
    ∃ k : Nat, (used levels)[k]? = some levels[i] :=
  List.mem_iff_getElem?.1 (mem_used.2 (List.getElem_mem hi))

theorem partitions_strataOf (levels : List Nat) : Partitions levels.length (strataOf levels) where
  numbered := by
    rw [strataOf_eq, List.map_map, List.length_map, List.length_zipIdx]
    show (used levels).zipIdx.map Prod.snd = _
    rw [List.zipIdx_map_snd, List.range_eq_range']
  nonempty := by
    intro s hs
    obtain ⟨k, v, hk, rfl⟩ := mem_strataOf.1 hs
    obtain ⟨i, hi⟩ := List.mem_iff_getElem?.1 (mem_used.1 (List.mem_of_getElem? hk))
    exact List.ne_nil_of_mem (mem_places.2 hi)
  ascending := by
    intro s hs
    obtain ⟨k, v, -, rfl⟩ := mem_strataOf.1 hs
    exact pairwise_places levels v
  within := by
    intro s hs i hi
    obtain ⟨k, v, -, rfl⟩ := mem_strataOf.1 hs
    exact (List.getElem?_eq_some_iff.1 (mem_places.1 hi)).1
  unique := by
    intro i hi
    obtain ⟨k, hk⟩ := exists_used_of_lt hi
    refine ⟨⟨k, places levels levels[i]⟩, ⟨mem_strataOf.2 ⟨k, _, hk, rfl⟩, ?_⟩, ?_⟩
    · exact mem_places.2 (List.getElem?_eq_getElem hi)
    · rintro t ⟨ht, hit⟩
      obtain ⟨j, w, hj, rfl⟩ := mem_strataOf.1 ht
      obtain rfl : levels[i] = w := (List.getElem?_eq_some_iff.1 (mem_places.1 hit)).2
      have hjk : ¬j < k := mt (place_lt_iff (pairwise_used levels) hj hk).1 (Nat.lt_irrefl _)
      have hkj : ¬k < j := mt (place_lt_iff (pairwise_used levels) hk hj).1 (Nat.lt_irrefl _)
      obtain rfl : j = k := by omega
      rfl

/-! ## The number of a rule's stratum -/

/-- A rule is in the stratum whose number is the place of its level among those in use. -/
theorem used_of_stratumOf? {levels : List Nat} {i k : Nat}
    (h : stratumOf? (strataOf levels) i = some k) :
    ∃ v, (used levels)[k]? = some v ∧ levels[i]? = some v := by
  obtain ⟨s, hfind, rfl⟩ := Option.map_eq_some_iff.1 h
  obtain ⟨k, v, hk, rfl⟩ := mem_strataOf.1 (List.mem_of_find?_eq_some hfind)
  have hcontains := List.find?_some hfind
  exact ⟨v, hk, mem_places.1 (List.contains_iff_mem.1 hcontains)⟩

theorem exists_stratumOf? {levels : List Nat} {i : Nat} (hi : i < levels.length) :
    ∃ k, stratumOf? (strataOf levels) i = some k := by
  obtain ⟨s, ⟨hs, his⟩, -⟩ := (partitions_strataOf levels).unique i hi
  have hsome : ((strataOf levels).find? (·.rules.contains i)).isSome :=
    List.find?_isSome.2 ⟨s, hs, List.contains_iff_mem.2 his⟩
  obtain ⟨t, ht⟩ := Option.isSome_iff_exists.1 hsome
  exact ⟨t.index, Option.map_eq_some_iff.2 ⟨t, ht, rfl⟩⟩

/-- The stratum number of a rule, as a total function on places. -/
def number (strata : List Stratum) (i : Nat) : Nat := (stratumOf? strata i).getD 0

theorem stratumOf?_eq_number {levels : List Nat} {i : Nat} (hi : i < levels.length) :
    stratumOf? (strataOf levels) i = some (number (strataOf levels) i) := by
  obtain ⟨k, hk⟩ := exists_stratumOf? hi
  unfold number
  rw [hk, Option.getD_some]

/-- The number of a rule's stratum is the place of the rule's level among the levels in use. -/
theorem used_number {levels : List Nat} {i : Nat} (hi : i < levels.length) :
    (used levels)[number (strataOf levels) i]? = some (levels.getD i 0) := by
  obtain ⟨v, hused, hlevel⟩ := used_of_stratumOf? (stratumOf?_eq_number hi)
  rw [hused, List.getD_eq_getElem?_getD, hlevel, Option.getD_some]

theorem number_lt_iff {levels : List Nat} {i j : Nat} (hi : i < levels.length)
    (hj : j < levels.length) :
    number (strataOf levels) i < number (strataOf levels) j
      ↔ levels.getD i 0 < levels.getD j 0 :=
  place_lt_iff (pairwise_used levels) (used_number hi) (used_number hj)

theorem number_le_level {levels : List Nat} {i : Nat} (hi : i < levels.length) :
    number (strataOf levels) i ≤ levels.getD i 0 :=
  place_le (pairwise_used levels) (used_number hi)

/-- Renumbering keeps the constraints. -/
theorem respects_number {rules : List Rule} {levels : List Nat}
    (hlen : levels.length = rules.length) (h : Respects rules (levels.getD · 0)) :
    Respects rules (number (strataOf levels)) := by
  intro i l d hreads
  obtain ⟨hi, hd⟩ := hreads.lt_length
  rw [← hlen] at hi hd
  obtain ⟨hle, hlt⟩ := h i l d hreads
  constructor
  · have hnot : ¬number (strataOf levels) i < number (strataOf levels) d := by
      rw [number_lt_iff hi hd]
      exact Nat.not_lt.2 hle
    exact Nat.not_lt.1 hnot
  · intro hneg
    exact (number_lt_iff hd hi).2 (hlt hneg)

/-- The levels behind the strata of a program: they meet the constraints, and no assignment that
does has a rule lower. -/
theorem levels_of_ofProgram {p : Program} {strata : List Stratum} {passes : Nat}
    (h : (ofProgram p).result = .ok (strata, passes)) :
    ∃ levels : List Nat, levels.length = p.rules.length ∧ strata = strataOf levels
      ∧ Respects p.rules (levels.getD · 0)
      ∧ ∀ f, Respects p.rules f → ∀ i, levels.getD i 0 ≤ f i := by
  unfold ofProgram at h
  split at h
  · exact nomatch h
  · have hzero : (p.rules.map fun _ => 0).length = p.rules.length := by
      rw [List.length_map]
    obtain ⟨levels, hlen, hstrata, hrespects, hleast⟩ := settle_eq_ok hzero h
    refine ⟨levels, hlen, hstrata, hrespects, fun f hf => hleast f hf fun i => ?_⟩
    rw [getD_map_zero]
    exact Nat.zero_le _

theorem partitions_of_ofProgram {p : Program} {strata : List Stratum} {passes : Nat}
    (h : (ofProgram p).result = .ok (strata, passes)) : Partitions p.rules.length strata := by
  obtain ⟨levels, hlen, rfl, -, -⟩ := levels_of_ofProgram h
  exact hlen ▸ partitions_strataOf levels

/-- There are no more strata than rules. -/
theorem index_lt_of_ofProgram {p : Program} {strata : List Stratum} {passes : Nat}
    (h : (ofProgram p).result = .ok (strata, passes)) {s : Stratum} (hs : s ∈ strata) :
    s.index < p.rules.length := by
  obtain ⟨levels, hlen, rfl, -, -⟩ := levels_of_ofProgram h
  obtain ⟨k, v, hk, rfl⟩ := mem_strataOf.1 hs
  have hnodup : (used levels).Nodup := (pairwise_used levels).imp Nat.ne_of_lt
  have hle : (used levels).length ≤ levels.length :=
    (hnodup.subperm fun _ => mem_used.1).length_le
  have hlt : k < (used levels).length := (List.getElem?_eq_some_iff.1 hk).1
  show k < p.rules.length
  omega

/-- **Layers are sound and least.** Whatever the rules and the graph of a program, the strata it is
given share out its rules, each rule in one stratum and in source order, no stratum empty. A rule is
never in an earlier stratum than a rule it reads, and in a later one if it reads it under negation.
No assignment with this property puts any rule lower. -/
theorem strata_least {p : Program} {strata : List Stratum} {passes : Nat}
    (h : (ofProgram p).result = .ok (strata, passes)) :
    Partitions p.rules.length strata
      ∧ ∃ level : Nat → Nat,
        (∀ i < p.rules.length, stratumOf? strata i = some (level i))
          ∧ Respects p.rules level
          ∧ ∀ s, Respects p.rules s → ∀ i < p.rules.length, level i ≤ s i := by
  refine ⟨partitions_of_ofProgram h, ?_⟩
  obtain ⟨levels, hlen, rfl, hrespects, hleast⟩ := levels_of_ofProgram h
  refine ⟨number (strataOf levels), ?_, respects_number hlen hrespects, ?_⟩
  · intro i hi
    exact stratumOf?_eq_number (hlen ▸ hi)
  · intro s hs i hi
    exact Nat.le_trans (number_le_level (hlen ▸ hi)) (hleast s hs i)

/-- Nodes that are not reached, above the rule that says which ones are. -/
def unreached : Program :=
  .ofRules "unreached" [
      ⟨⟨"lonely", [.var "x"]⟩, [.literal ⟨false, ⟨"node", [.var "x"]⟩⟩,
        .literal ⟨true, ⟨"reached", [.var "x"]⟩⟩], 1, ""⟩,
      ⟨⟨"reached", [.var "x"]⟩, [.literal ⟨false, ⟨"start", [.var "x"]⟩⟩], 2, ""⟩]
    [] default

/-- The rule that negates moves up although it stands first. -/
theorem strata_least_unreached :
    (ofProgram unreached).result = .ok ([⟨0, [1]⟩, ⟨1, [0]⟩], 2)
      ∧ Partitions 2 [⟨0, [1]⟩, ⟨1, [0]⟩]
      ∧ ∃ level : Nat → Nat,
        (∀ i < 2, stratumOf? [⟨0, [1]⟩, ⟨1, [0]⟩] i = some (level i))
          ∧ Respects unreached.rules level
          ∧ ∀ s, Respects unreached.rules s → ∀ i < 2, level i ≤ s i := by
  have h : (ofProgram unreached).result = .ok ([⟨0, [1]⟩, ⟨1, [0]⟩], 2) := by cbv
  exact ⟨h, strata_least h⟩

end Layering

end RulePlan
