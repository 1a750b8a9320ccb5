import Mathlib.Logic.Function.Basic
import RulePlan.Plan.Compile
import RulePlan.Proofs.CompiledPlan

/-!
# RulePlan.Proofs.Relocations — the log of moves reproduces the levels

A relocation names a line, the level that the rule on it leaves, and the level that it goes to.
Layering keeps levels by place, and a later visit of a pass already sees what an earlier one has
changed. Replaying the log by line must therefore find every rule exactly where the log says it is.
It does, because a visit that records a move changes one level and no other, and because no two
rules stand on the same line. What the last relocation leaves are the levels that the strata number.
-/

namespace RulePlan

namespace Event

/-- The levels by line after a relocation. There are none if it does not start at the level of the
rule on its line, or if it does not go up. -/
def relocate (level : Int → Int) (e : Event) : Option (Int → Int) :=
  match e.get "line", e.get "from", e.get "to" with
  | .number line, .number start, .number target =>
    if start = level line ∧ start < target then some (Function.update level line target) else none
  | _, _, _ => none

/-- The levels by line after a log of relocations. -/
def replay (level : Int → Int) (log : List Event) : Option (Int → Int) := log.foldlM relocate level

theorem replay_append (level : Int → Int) (log more : List Event) :
    replay level (log ++ more) = (replay level log).bind (replay · more) := List.foldlM_append

theorem replay_singleton (level : Int → Int) (e : Event) : replay level [e] = relocate level e := by
  unfold replay
  rw [List.foldlM_cons]
  cases relocate level e <;> rfl

theorem relocate_ofMove {level : Int → Int} {m : Move} (hfrom : (m.fromLevel : Int) = level m.line)
    (hup : m.fromLevel < m.toLevel) :
    relocate level (ofMove m) = some (Function.update level m.line m.toLevel) :=
  if_pos ⟨hfrom, Int.ofNat_lt.2 hup⟩

end Event

namespace Layering

open Event

/-! ## Levels by line -/

/-- The level of the rule on a line, zero if there is none. -/
def levelOn (rules : List Rule) (levels : List Nat) (line : Int) : Int :=
  levels.getD (rules.findIdx (·.line == line)) 0

section Lines

variable {rules : List Rule} (hlines : rules.Pairwise fun r s => r.line < s.line)
  {r : Rule} {i : Nat}

include hlines

/-- A rule is found by its line. -/
theorem findIdx_line (hi : rules[i]? = some r) : rules.findIdx (·.line == r.line) = i := by
  obtain ⟨hlt, rfl⟩ := List.getElem?_eq_some_iff.1 hi
  refine (List.findIdx_eq hlt).2 ⟨beq_iff_eq.2 rfl, fun j hj => ?_⟩
  have hless := List.pairwise_iff_getElem.1 hlines j i (Nat.lt_trans hj hlt) hlt hj
  exact beq_eq_false_iff_ne.2 (Int.ne_of_lt hless)

theorem levelOn_line (hi : rules[i]? = some r) (levels : List Nat) :
    levelOn rules levels r.line = levels.getD i 0 := by
  unfold levelOn
  rw [findIdx_line hlines hi]

/-- Changing the level of a place changes that of one line. -/
theorem levelOn_set (hi : rules[i]? = some r) {levels : List Nat} (hlen : i < levels.length)
    (need : Nat) :
    levelOn rules (levels.set i need) = Function.update (levelOn rules levels) r.line need := by
  funext line
  unfold levelOn
  rw [getD_set hlen, Function.update_apply]
  by_cases hline : line = r.line
  · rw [hline, findIdx_line hlines hi, if_pos rfl, if_pos rfl]
  · have hne : i ≠ rules.findIdx (·.line == line) := by
      intro heq
      -- the rule found would be the one at place `i`, and would stand on both lines
      have hlt : rules.findIdx (·.line == line) < rules.length :=
        heq ▸ (List.getElem?_eq_some_iff.1 hi).1
      have hfound := List.findIdx_getElem (w := hlt)
      subst heq
      rw [List.getElem?_eq_getElem hlt] at hi
      rw [Option.some.inj hi] at hfound
      exact hline (beq_iff_eq.1 hfound).symm
    rw [if_neg hne, if_neg hline]

end Lines

/-! ## The log of the passes -/

section Log

variable {rules : List Rule} (hlines : rules.Pairwise fun r s => r.line < s.line)

include hlines

/-- What a visit records is what it does to the levels. -/
theorem settleLiteral_replay {r : Rule} {i : Nat} (hr : rules[i]? = some r) {s : State}
    (hlen : s.levels.length = rules.length) (l : Literal) :
    ∃ log, (settleLiteral rules r i s l).moves = s.moves ++ log
      ∧ replay (levelOn rules s.levels) (log.map ofMove)
        = some (levelOn rules (settleLiteral rules r i s l).levels) := by
  have hi : i < s.levels.length := hlen ▸ (List.getElem?_eq_some_iff.1 hr).1
  unfold settleLiteral
  cases needed? rules s.levels l with
  | none => exact ⟨[], (List.append_nil _).symm, rfl⟩
  | some need =>
    by_cases hlt : s.levels.getD i 0 < need
    · simp only [hlt, if_true]
      refine ⟨_, rfl, ?_⟩
      rw [levelOn_set hlines hr hi, List.map_singleton, replay_singleton]
      exact relocate_ofMove (levelOn_line hlines hr s.levels).symm hlt
    · simp only [hlt, if_false]
      exact ⟨[], (List.append_nil _).symm, rfl⟩

theorem pass_replay {levels : List Nat} (hlen : levels.length = rules.length) :
    replay (levelOn rules levels) ((pass rules levels).moves.map ofMove)
      = some (levelOn rules (pass rules levels).levels) := by
  rw [pass_eq_foldl_visits]
  refine (foldl_visits_preserves
    (P := fun s => s.levels.length = rules.length
      ∧ replay (levelOn rules levels) (s.moves.map ofMove) = some (levelOn rules s.levels))
    (fun v hv => hv) ⟨hlen, rfl⟩ ?_).2
  rintro s ⟨hs, hlog⟩ v hv
  have hi : v.1.2 < s.levels.length := hs ▸ place_lt_of_mem_visits hv
  refine ⟨(below_settleLiteral hi).length_eq.symm.trans hs, ?_⟩
  obtain ⟨more, hmoves, hmore⟩ := settleLiteral_replay hlines (mem_visits.1 hv).1 hs v.2
  unfold visit
  rw [hmoves, List.map_append, replay_append, hlog]
  exact hmore

/-- The log of all passes, after one that has been replayed. -/
theorem settle_replay {start : Int → Int} {allowed done passes : Nat} {levels : List Nat}
    {moves : List Move} {strata : List Stratum} (hlen : levels.length = rules.length)
    (h : (settle rules allowed done levels moves).result = .ok (strata, passes))
    (hlog : replay start (moves.map ofMove) = some (levelOn rules levels)) :
    ∃ final : List Nat, strata = strataOf final
      ∧ replay start ((settle rules allowed done levels moves).moves.map ofMove)
        = some (levelOn rules final) := by
  induction allowed generalizing done levels moves with
  | zero => exact nomatch h
  | succ allowed ih =>
    unfold settle at h ⊢
    by_cases hmoves : (pass rules levels).moves = []
    · simp only [hmoves, if_true] at h ⊢
      cases h
      exact ⟨levels, rfl, hlog⟩
    · simp only [hmoves, if_false] at h ⊢
      apply ih ((below_pass hlen).length_eq.symm.trans hlen) h
      rw [List.map_append, replay_append, hlog]
      exact pass_replay hlines hlen

end Log

/-! ## Lower levels, earlier strata -/

theorem levelOn_map_zero (rules rules' : List Rule) (line : Int) :
    levelOn rules (rules'.map fun _ => 0) line = 0 := by
  unfold levelOn
  rw [getD_map_zero]
  rfl

/-- The place of a stratum is that of the level of its rules among the levels in use. -/
theorem used_of_mem_members {p : Program} (hlines : p.rules.Pairwise fun r s => r.line < s.line)
    {levels : List Nat} {i : Nat} {s : Stratum} (hs : (strataOf levels)[i]? = some s) {q : Rule}
    (hq : q ∈ s.members p) :
    ∃ v : Nat, (used levels)[i]? = some v ∧ levelOn p.rules levels q.line = v := by
  rw [strataOf_eq, List.getElem?_map, List.getElem?_zipIdx, Option.map_map] at hs
  obtain ⟨v, hv, rfl⟩ := Option.map_eq_some_iff.1 hs
  obtain ⟨k, hk, hkq⟩ := List.mem_filterMap.1 hq
  refine ⟨v, hv, ?_⟩
  rw [levelOn_line hlines hkq, List.getD_eq_getElem?_getD, mem_places.1 hk]
  rfl

/-- **The log of moves is the layering.** The moves of a layered program, replayed from level zero,
give levels under which one rule is lower than another iff its stratum is earlier. -/
theorem replay_of_ofProgram {p : Program} (hlines : p.rules.Pairwise fun r s => r.line < s.line)
    {strata : List Stratum} {passes : Nat} (h : (ofProgram p).result = .ok (strata, passes)) :
    ∃ level, replay (fun _ => 0) ((ofProgram p).moves.map ofMove) = some level
      ∧ ∀ (i j : Nat) (s t : Stratum), strata[i]? = some s → strata[j]? = some t →
        ∀ q ∈ s.members p, ∀ q' ∈ t.members p, level q.line < level q'.line ↔ i < j := by
  unfold ofProgram at h ⊢
  split at h
  case h_1 => exact nomatch h
  case h_2 =>
    have hlen : (p.rules.map fun _ => 0).length = p.rules.length := List.length_map _
    have hzero : (fun _ => 0) = levelOn p.rules (p.rules.map fun _ => 0) :=
      funext fun line => (levelOn_map_zero p.rules p.rules line).symm
    have hstart : replay (fun _ => 0) (([] : List Move).map ofMove)
        = some (levelOn p.rules (p.rules.map fun _ => 0)) := congrArg some hzero
    obtain ⟨final, rfl, hlog⟩ := settle_replay hlines hlen h hstart
    refine ⟨_, hlog, ?_⟩
    intro i j s t hs ht q hq q' hq'
    obtain ⟨v, hv, hlevel⟩ := used_of_mem_members hlines hs hq
    obtain ⟨w, hw, hlevel'⟩ := used_of_mem_members hlines ht hq'
    rw [hlevel, hlevel', place_lt_iff (pairwise_used final) hv hw]
    omega

end Layering

end RulePlan
