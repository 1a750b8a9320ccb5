import Mathlib.Order.Lattice.Nat
import RulePlan.Proofs.Levels

/-!
# RulePlan.Proofs.Convergence — how many passes layering takes

If any assignment meets the constraints at all, there is a least one, and levels never rise above
it. A rule is behind while it stands below it. No pass leaves the set of rules behind as it is,
unless it is empty: otherwise all of them could stand one lower in the least assignment, for what
holds a rule up is a rule that is behind as well, or one that has arrived and has raised it in this
pass. So rules arrive with every pass, and one pass more than there are rules is enough.
-/

namespace RulePlan

namespace Layering

variable {rules : List Rule} {levels : List Nat}

/-! ## The least assignment -/

/-- The lowest number that a rule has in any assignment that meets the constraints. -/
noncomputable def least (rules : List Rule) (i : Nat) : Nat :=
  sInf {n | ∃ s, Respects rules s ∧ s i = n}

theorem least_le {s : Nat → Nat} (hs : Respects rules s) (i : Nat) : least rules i ≤ s i :=
  Nat.sInf_le ⟨s, hs, rfl⟩

theorem respects_least {s : Nat → Nat} (hs : Respects rules s) : Respects rules (least rules) := by
  refine respects_iff.2 fun i l d hreads => ?_
  have hattained : least rules i ∈ {n | ∃ s, Respects rules s ∧ s i = n} :=
    Nat.sInf_mem ⟨s i, s, hs, rfl⟩
  obtain ⟨f, hf, hfi⟩ := hattained
  have hstep : f d + l.rise ≤ f i := respects_iff.1 hf i l d hreads
  have hd : least rules d ≤ f d := least_le hf d
  omega

/-! ## Rules behind -/

/-- The rules that stand below the least assignment. -/
noncomputable def behind (rules : List Rule) (levels : List Nat) : List Nat :=
  (List.range rules.length).filter fun i => levels.getD i 0 < least rules i

theorem mem_behind {i : Nat} :
    i ∈ behind rules levels ↔ i < rules.length ∧ levels.getD i 0 < least rules i := by
  unfold behind
  rw [List.mem_filter, List.mem_range, decide_eq_true_eq]

theorem length_behind_le (rules : List Rule) (levels : List Nat) :
    (behind rules levels).length ≤ rules.length := by
  unfold behind
  calc ((List.range rules.length).filter _).length
      ≤ (List.range rules.length).length := List.length_filter_le _ _
    _ = rules.length := List.length_range

/-- Raising levels leaves fewer rules behind, if one of them has arrived. -/
theorem length_behind_lt {levels' : List Nat} (hbelow : Below levels levels') {i : Nat}
    (hi : i ∈ behind rules levels) (harrived : i ∉ behind rules levels') :
    (behind rules levels').length < (behind rules levels).length := by
  have hfilter : behind rules levels'
      = (behind rules levels).filter fun j => levels'.getD j 0 < least rules j := by
    unfold behind
    rw [List.filter_filter]
    refine List.filter_congr fun j _ => ?_
    have hj := hbelow.le j
    rw [Bool.eq_iff_iff, Bool.and_eq_true, decide_eq_true_eq, decide_eq_true_eq]
    omega
  rw [hfilter]
  refine List.length_filter_lt_length_iff_exists.2 ⟨i, hi, ?_⟩
  rw [decide_eq_true_eq]
  exact fun h => harrived (mem_behind.2 ⟨(mem_behind.1 hi).1, h⟩)

/-- The least assignment with all rules behind taken down by one. -/
noncomputable def lowered (rules : List Rule) (levels : List Nat) (i : Nat) : Nat :=
  if levels.getD i 0 < least rules i then least rules i - 1 else least rules i

theorem lowered_le (rules : List Rule) (levels : List Nat) (i : Nat) :
    lowered rules levels i ≤ least rules i := by
  unfold lowered
  split
  · exact Nat.sub_le _ _
  · exact Nat.le_refl _

/-- If a pass lets no rule arrive, the rules behind could all stand one lower. -/
theorem respects_lowered {s : Nat → Nat} (hs : Respects rules s)
    (hlen : levels.length = rules.length)
    (hstuck : ∀ i ∈ behind rules levels, i ∈ behind rules (pass rules levels).levels) :
    Respects rules (lowered rules (pass rules levels).levels) := by
  refine respects_iff.2 fun i l d hreads => ?_
  have hleast : least rules d + l.rise ≤ least rules i :=
    respects_iff.1 (respects_least hs) i l d hreads
  have hdle := lowered_le rules (pass rules levels).levels d
  by_cases hi : (pass rules levels).levels.getD i 0 < least rules i
  · rw [show lowered rules (pass rules levels).levels i = least rules i - 1 from if_pos hi]
    by_cases hd : (pass rules levels).levels.getD d 0 < least rules d
    · rw [show lowered rules (pass rules levels).levels d = least rules d - 1 from if_pos hd]
      omega
    · -- rule `d` had arrived before the pass, so the pass has put rule `i` above it
      have hbefore : ¬levels.getD d 0 < least rules d := fun h =>
        hd (mem_behind.1 (hstuck d (mem_behind.2 ⟨hreads.lt_length.2, h⟩))).2
      have hraised := le_pass_of_reads hlen hreads
      omega
  · rw [show lowered rules (pass rules levels).levels i = least rules i from if_neg hi]
    omega

/-- Every pass over levels that are not final lets a rule arrive. -/
theorem length_behind_pass_lt {s : Nat → Nat} (hs : Respects rules s)
    (hlen : levels.length = rules.length) (hne : behind rules levels ≠ []) :
    (behind rules (pass rules levels).levels).length < (behind rules levels).length := by
  by_contra hnot
  have hstuck : ∀ i ∈ behind rules levels, i ∈ behind rules (pass rules levels).levels := by
    intro i hi
    by_contra harrived
    exact hnot (length_behind_lt (below_pass hlen) hi harrived)
  obtain ⟨i, hi⟩ := List.exists_mem_of_ne_nil _ hne
  have hbehind := (mem_behind.1 (hstuck i hi)).2
  have hlower := least_le (respects_lowered hs hlen hstuck) i
  rw [show lowered rules _ i = least rules i - 1 from if_pos hbehind] at hlower
  omega

/-- A pass that moves a rule finds one behind. -/
theorem behind_ne_nil_of_moves {s : Nat → Nat} (hs : Respects rules s)
    (hlen : levels.length = rules.length) (hle : ∀ i, levels.getD i 0 ≤ least rules i)
    (hmoves : (pass rules levels).moves ≠ []) : behind rules levels ≠ [] := by
  obtain ⟨-, i, hi⟩ := (pass_moves_cases hlen).resolve_left fun h => hmoves h.1
  have hbound := pass_le hlen (respects_least hs) hle i
  have hilen : i < rules.length := by
    by_contra hnot
    have hout : (pass rules levels).levels.length ≤ i := by
      rw [← (below_pass hlen).length_eq, hlen]
      exact Nat.not_lt.1 hnot
    rw [List.getD_eq_getElem?_getD (l := (pass rules levels).levels),
      List.getElem?_eq_none hout] at hi
    exact Nat.not_lt_zero _ hi
  exact List.ne_nil_of_mem (mem_behind.2 ⟨hilen, Nat.lt_of_lt_of_le hi hbound⟩)

/-! ## The number of passes -/

/-- **Passes end.** If some assignment meets the constraints, as many passes as there are rules
behind, and one more, settle all levels. -/
theorem settle_isOk {s : Nat → Nat} (hs : Respects rules s) {allowed done : Nat} {moves : List Move}
    (hlen : levels.length = rules.length) (hle : ∀ i, levels.getD i 0 ≤ least rules i)
    (hallowed : (behind rules levels).length < allowed) :
    ∃ strata passes, (settle rules allowed done levels moves).result = .ok (strata, passes)
      ∧ passes ≤ done + allowed := by
  induction allowed generalizing done levels moves with
  | zero => exact absurd hallowed (Nat.not_lt_zero _)
  | succ allowed ih =>
    unfold settle
    by_cases hmoves : (pass rules levels).moves = []
    · simp only [hmoves, if_true]
      exact ⟨_, _, rfl, by omega⟩
    · simp only [hmoves, if_false]
      have hprogress := length_behind_pass_lt hs hlen (behind_ne_nil_of_moves hs hlen hle hmoves)
      obtain ⟨strata, passes, hok, hpasses⟩ :=
        ih ((below_pass hlen).length_eq.symm.trans hlen) (pass_le hlen (respects_least hs) hle)
          (Nat.lt_of_lt_of_le hprogress (Nat.le_of_lt_succ hallowed))
      exact ⟨strata, passes, hok, by omega⟩

end Layering

end RulePlan
