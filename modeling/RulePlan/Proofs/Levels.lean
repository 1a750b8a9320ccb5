import RulePlan.Stratum

/-!
# RulePlan.Proofs.Levels — what a pass over the rules does to their levels

Levels are constrained by who reads whom: a rule stands at least as high as every rule that defines
a predicate of its body, and higher if it negates that predicate. A pass visits every literal of
every rule once and raises the rule in place, so a later visit already sees the raised level. Three
facts carry everything else: a pass never lowers a level, it never raises one above any assignment
that meets the constraints, and after it a rule stands as high as the levels before it required. A
pass without moves therefore ends in the least assignment there is.
-/

namespace RulePlan

/-- How far above its defining rules a literal puts the rule that reads it. -/
def Literal.rise (l : Literal) : Nat := if l.negated then 1 else 0

namespace Layering

/-- Rule number `d` defines a predicate. -/
def Defines (rules : List Rule) (d : Nat) (predicate : String) : Prop :=
  ∃ q, rules[d]? = some q ∧ q.head.predicate = predicate

/-- Rule number `i` has the literal `l` in its body, and rule number `d` defines its predicate. -/
def Reads (rules : List Rule) (i : Nat) (l : Literal) (d : Nat) : Prop :=
  (∃ r, rules[i]? = some r ∧ l ∈ r.literals) ∧ Defines rules d l.atom.predicate

theorem Reads.lt_length {rules : List Rule} {i d : Nat} {l : Literal} (h : Reads rules i l d) :
    i < rules.length ∧ d < rules.length := by
  obtain ⟨⟨r, hr, -⟩, q, hq, -⟩ := h
  exact ⟨(List.getElem?_eq_some_iff.1 hr).1, (List.getElem?_eq_some_iff.1 hq).1⟩

/-- An assignment of numbers to rules in which no rule stands below one it reads, and every rule
stands above those it reads under negation. -/
def Respects (rules : List Rule) (s : Nat → Nat) : Prop :=
  ∀ i l d, Reads rules i l d → s d ≤ s i ∧ (l.negated = true → s d < s i)

theorem respects_iff {rules : List Rule} {s : Nat → Nat} :
    Respects rules s ↔ ∀ i l d, Reads rules i l d → s d + l.rise ≤ s i := by
  refine forall_congr' fun i => forall_congr' fun l => forall_congr' fun d =>
    imp_congr_right fun _ => ?_
  unfold Literal.rise
  by_cases hl : l.negated = true
  · rw [if_pos hl]
    constructor
    · intro h
      exact h.2 hl
    · intro h
      exact ⟨Nat.le_of_lt h, fun _ => h⟩
  · rw [if_neg hl]
    exact and_iff_left fun h => absurd h hl

/-! ## What a literal requires -/

section Required

variable {rules : List Rule} {levels : List Nat} {l : Literal}

theorem needed?_eq (rules : List Rule) (levels : List Nat) (l : Literal) :
    needed? rules levels l = (definedAt? rules levels l.atom.predicate).map (· + l.rise) := by
  unfold needed? Literal.rise
  congr 1
  funext m
  split <;> rfl

/-- The levels that count for a predicate are those of its defining rules. -/
theorem mem_defining_levels {predicate : String} {v : Nat} :
    v ∈ ((rules.zip levels).filter (·.1.head.predicate == predicate)).map Prod.snd
      ↔ ∃ d, Defines rules d predicate ∧ levels[d]? = some v := by
  constructor
  · intro hv
    obtain ⟨⟨q, w⟩, hqw, rfl⟩ := List.mem_map.1 hv
    obtain ⟨hzip, hhead⟩ := List.mem_filter.1 hqw
    obtain ⟨d, hd⟩ := List.mem_iff_getElem?.1 hzip
    obtain ⟨hq, hw⟩ := List.getElem?_zip_eq_some.1 hd
    exact ⟨d, ⟨q, hq, eq_of_beq hhead⟩, hw⟩
  · rintro ⟨d, ⟨q, hq, hhead⟩, hv⟩
    have hzip : (q, v) ∈ rules.zip levels :=
      List.mem_of_getElem? (List.getElem?_zip_eq_some.2 ⟨hq, hv⟩)
    exact List.mem_map.2 ⟨(q, v), List.mem_filter.2 ⟨hzip, beq_iff_eq.2 hhead⟩, rfl⟩

/-- What a literal requires is required by one of the rules that define its predicate. -/
theorem exists_defines_of_needed? {need : Nat} (h : needed? rules levels l = some need) :
    ∃ d, Defines rules d l.atom.predicate ∧ need = levels.getD d 0 + l.rise := by
  rw [needed?_eq] at h
  obtain ⟨m, hm, rfl⟩ := Option.map_eq_some_iff.1 h
  obtain ⟨d, hd, hv⟩ := mem_defining_levels.1 (List.max?_eq_some_iff.1 hm).1
  refine ⟨d, hd, ?_⟩
  rw [List.getD_eq_getElem?_getD, hv, Option.getD_some]

/-- Every rule that defines the predicate of a literal has its say in what the literal requires. -/
theorem exists_needed?_of_defines (hlen : levels.length = rules.length) {d : Nat}
    (hd : Defines rules d l.atom.predicate) :
    ∃ need, needed? rules levels l = some need ∧ levels.getD d 0 + l.rise ≤ need := by
  obtain ⟨q, hq, -⟩ := id hd
  have hlt : d < levels.length := hlen ▸ (List.getElem?_eq_some_iff.1 hq).1
  have hv : levels[d]? = some levels[d] := List.getElem?_eq_getElem hlt
  have hmem := mem_defining_levels.2 ⟨d, hd, hv⟩
  cases hm : definedAt? rules levels l.atom.predicate with
  | none =>
    -- no maximum means no defining level at all, but rule `d` has one
    rw [List.max?_eq_none_iff.1 hm] at hmem
    exact absurd hmem List.not_mem_nil
  | some m =>
    have hle : levels[d] ≤ m := (List.max?_eq_some_iff.1 hm).2 _ hmem
    refine ⟨m + l.rise, by rw [needed?_eq, hm, Option.map_some], ?_⟩
    rw [List.getD_eq_getElem?_getD, hv, Option.getD_some]
    omega

end Required

/-! ## One visit -/

/-- Levels pointwise below others, over the same rules. -/
structure Below (xs ys : List Nat) : Prop where
  length_eq : xs.length = ys.length
  le : ∀ i, xs.getD i 0 ≤ ys.getD i 0

theorem Below.refl (xs : List Nat) : Below xs xs := ⟨rfl, fun _ => Nat.le_refl _⟩

theorem Below.trans {xs ys zs : List Nat} (h : Below xs ys) (h' : Below ys zs) : Below xs zs :=
  ⟨h.length_eq.trans h'.length_eq, fun i => Nat.le_trans (h.le i) (h'.le i)⟩

theorem getD_set {levels : List Nat} {i j need : Nat} (hi : i < levels.length) :
    (levels.set i need).getD j 0 = if i = j then need else levels.getD j 0 := by
  rw [List.getD_eq_getElem?_getD, List.getElem?_set, List.getD_eq_getElem?_getD]
  by_cases hij : i = j
  · simp only [hij, if_true, hij ▸ hi, Option.getD_some]
  · simp only [hij, if_false]

/-- A visit leaves everything as it was, the literal being satisfied, or it raises the rule to the
level required and records one move. -/
theorem settleLiteral_cases (rules : List Rule) (r : Rule) (i : Nat) (s : State) (l : Literal) :
    (settleLiteral rules r i s l = s
        ∧ ∀ need, needed? rules s.levels l = some need → need ≤ s.levels.getD i 0)
      ∨ ∃ need move, needed? rules s.levels l = some need ∧ s.levels.getD i 0 < need
        ∧ settleLiteral rules r i s l = ⟨s.levels.set i need, s.moves ++ [move]⟩ := by
  unfold settleLiteral
  cases hneed : needed? rules s.levels l with
  | none => exact .inl ⟨rfl, fun need h => nomatch h⟩
  | some need =>
    by_cases hlt : s.levels.getD i 0 < need
    · exact .inr ⟨need, _, rfl, hlt, if_pos hlt⟩
    · refine .inl ⟨if_neg hlt, fun need' h => ?_⟩
      obtain rfl := Option.some.inj h
      exact Nat.not_lt.1 hlt

section Visit

variable {rules : List Rule} {r : Rule} {i : Nat} {s : State} {l : Literal}

theorem below_settleLiteral (hi : i < s.levels.length) :
    Below s.levels (settleLiteral rules r i s l).levels := by
  rcases settleLiteral_cases rules r i s l with ⟨h, -⟩ | ⟨need, move, -, hlt, h⟩
  · rw [h]
    exact Below.refl _
  · rw [h]
    refine ⟨List.length_set.symm, fun j => ?_⟩
    show s.levels.getD j 0 ≤ (s.levels.set i need).getD j 0
    rw [getD_set hi]
    by_cases hij : i = j
    · subst hij
      rw [if_pos rfl]
      omega
    · exact Nat.le_of_eq (if_neg hij).symm

/-- A visit raises no level above an assignment that meets the constraints. -/
theorem settleLiteral_le {f : Nat → Nat} (hf : Respects rules f) (hr : rules[i]? = some r)
    (hl : l ∈ r.literals) (hi : i < s.levels.length) (hs : ∀ j, s.levels.getD j 0 ≤ f j) :
    ∀ j, (settleLiteral rules r i s l).levels.getD j 0 ≤ f j := by
  rcases settleLiteral_cases rules r i s l with ⟨h, -⟩ | ⟨need, move, hneed, -, h⟩
  · rw [h]
    exact hs
  · intro j
    rw [h]
    show (s.levels.set i need).getD j 0 ≤ f j
    rw [getD_set hi]
    by_cases hij : i = j
    · subst hij
      obtain ⟨d, hd, rfl⟩ := exists_defines_of_needed? hneed
      have hstep : f d + l.rise ≤ f i := respects_iff.1 hf i l d ⟨⟨r, hr, hl⟩, hd⟩
      have hbound := hs d
      rw [if_pos rfl]
      omega
    · rw [if_neg hij]
      exact hs j

/-- After the visit of a literal its rule stands as high as the literal required. -/
theorem le_settleLiteral (hlen : s.levels.length = rules.length) (hi : i < s.levels.length)
    {d : Nat} (hd : Defines rules d l.atom.predicate) :
    s.levels.getD d 0 + l.rise ≤ (settleLiteral rules r i s l).levels.getD i 0 := by
  obtain ⟨need, hneed, hle⟩ := exists_needed?_of_defines hlen hd
  rcases settleLiteral_cases rules r i s l with ⟨h, hmet⟩ | ⟨need', move, hneed', -, h⟩
  · rw [h]
    exact Nat.le_trans hle (hmet need hneed)
  · obtain rfl : need = need' := Option.some.inj (hneed.symm.trans hneed')
    rw [h]
    show s.levels.getD d 0 + l.rise ≤ (s.levels.set i need).getD i 0
    rw [getD_set hi, if_pos rfl]
    exact hle

end Visit

/-! ## One pass -/

/-- The visits of a pass in order: every literal of every rule, with the rule and its place. -/
def visits (rules : List Rule) : List ((Rule × Nat) × Literal) :=
  rules.zipIdx.flatMap fun ri => ri.1.literals.map fun l => (ri, l)

/-- What a pass does at one visit. -/
def visit (rules : List Rule) (s : State) (v : (Rule × Nat) × Literal) : State :=
  settleLiteral rules v.1.1 v.1.2 s v.2

theorem mem_visits {rules : List Rule} {v : (Rule × Nat) × Literal} :
    v ∈ visits rules ↔ rules[v.1.2]? = some v.1.1 ∧ v.2 ∈ v.1.1.literals := by
  unfold visits
  rw [List.mem_flatMap]
  constructor
  · rintro ⟨ri, hri, hv⟩
    obtain ⟨l, hl, rfl⟩ := List.mem_map.1 hv
    exact ⟨List.mem_zipIdx_iff_getElem?.1 hri, hl⟩
  · rintro ⟨hr, hl⟩
    exact ⟨v.1, List.mem_zipIdx_iff_getElem?.2 hr, List.mem_map.2 ⟨v.2, hl, rfl⟩⟩

/-- The two nested loops of a pass are one run over its visits. -/
theorem pass_eq_foldl_visits (rules : List Rule) (levels : List Nat) :
    pass rules levels = (visits rules).foldl (visit rules) ⟨levels, []⟩ := by
  unfold pass visits
  rw [List.foldl_flatMap]
  congr 1
  funext s ri
  rw [List.foldl_map]
  rfl

section Pass

variable {rules : List Rule} {levels : List Nat}

/-- What every visit preserves holds after any run of visits. -/
theorem foldl_visits_preserves {P : State → Prop} {vs : List ((Rule × Nat) × Literal)} {s : State}
    (hvs : ∀ v ∈ vs, v ∈ visits rules) (hs : P s)
    (hstep : ∀ s, P s → ∀ v ∈ visits rules, P (visit rules s v)) :
    P (vs.foldl (visit rules) s) :=
  List.foldlRecOn vs (visit rules) hs fun s h v hv => hstep s h v (hvs v hv)

theorem place_lt_of_mem_visits {v : (Rule × Nat) × Literal} (hv : v ∈ visits rules) :
    v.1.2 < rules.length :=
  (List.getElem?_eq_some_iff.1 (mem_visits.1 hv).1).1

/-- Levels only grow, from any point of a pass to any later one. -/
theorem below_foldl_visits {vs : List ((Rule × Nat) × Literal)} {s : State}
    (hvs : ∀ v ∈ vs, v ∈ visits rules) (hlen : s.levels.length = rules.length) :
    Below s.levels (vs.foldl (visit rules) s).levels := by
  refine foldl_visits_preserves (P := fun s' => Below s.levels s'.levels) hvs (Below.refl _) ?_
  intro s' hs' v hv
  have hi : v.1.2 < s'.levels.length := by
    rw [← hs'.length_eq, hlen]
    exact place_lt_of_mem_visits hv
  exact hs'.trans (below_settleLiteral hi)

theorem below_pass (hlen : levels.length = rules.length) :
    Below levels (pass rules levels).levels := by
  rw [pass_eq_foldl_visits]
  exact below_foldl_visits (s := ⟨levels, []⟩) (fun v hv => hv) hlen

/-- A pass raises no level above an assignment that meets the constraints. -/
theorem pass_le (hlen : levels.length = rules.length) {f : Nat → Nat} (hf : Respects rules f)
    (hle : ∀ i, levels.getD i 0 ≤ f i) : ∀ i, (pass rules levels).levels.getD i 0 ≤ f i := by
  rw [pass_eq_foldl_visits]
  refine (foldl_visits_preserves
    (P := fun s => s.levels.length = rules.length ∧ ∀ i, s.levels.getD i 0 ≤ f i)
    (fun v hv => hv) ⟨hlen, hle⟩ ?_).2
  rintro s ⟨hs, hsf⟩ v hv
  have hi : v.1.2 < s.levels.length := hs ▸ place_lt_of_mem_visits hv
  obtain ⟨hr, hl⟩ := mem_visits.1 hv
  exact ⟨(below_settleLiteral hi).length_eq.symm.trans hs, settleLiteral_le hf hr hl hi hsf⟩

/-- After a pass every rule stands as high as the levels before the pass required. -/
theorem le_pass_of_reads (hlen : levels.length = rules.length) {i d : Nat} {l : Literal}
    (h : Reads rules i l d) :
    levels.getD d 0 + l.rise ≤ (pass rules levels).levels.getD i 0 := by
  obtain ⟨⟨r, hr, hl⟩, hd⟩ := h
  have hv : ((r, i), l) ∈ visits rules := mem_visits.2 ⟨hr, hl⟩
  -- cut the pass at the visit of this literal: levels grow up to it and from it on
  obtain ⟨pre, post, hsplit⟩ := List.append_of_mem hv
  have hpre : ∀ v ∈ pre, v ∈ visits rules := fun v h => by
    rw [hsplit]
    exact List.mem_append_left _ h
  have hpost : ∀ v ∈ post, v ∈ visits rules := fun v h => by
    rw [hsplit]
    exact List.mem_append_right _ (List.mem_cons_of_mem _ h)
  rw [pass_eq_foldl_visits, hsplit, List.foldl_append, List.foldl_cons]
  generalize hs : pre.foldl (visit rules) ⟨levels, []⟩ = s
  have hbefore : Below levels s.levels := hs ▸ below_foldl_visits (s := ⟨levels, []⟩) hpre hlen
  have hslen : s.levels.length = rules.length := hbefore.length_eq.symm.trans hlen
  have hi : i < s.levels.length := hslen ▸ place_lt_of_mem_visits hv
  have hat : s.levels.getD d 0 + l.rise ≤ (visit rules s ((r, i), l)).levels.getD i 0 :=
    le_settleLiteral hslen hi hd
  have hafter := below_foldl_visits (s := visit rules s ((r, i), l)) hpost
    ((below_settleLiteral hi).length_eq.symm.trans hslen)
  have := hbefore.le d
  have := hafter.le i
  omega

/-- A pass records no move, and then all levels are as before, or some rule stands higher. -/
theorem pass_moves_cases (hlen : levels.length = rules.length) :
    ((pass rules levels).moves = [] ∧ (pass rules levels).levels = levels)
      ∨ ((pass rules levels).moves ≠ []
        ∧ ∃ i, levels.getD i 0 < (pass rules levels).levels.getD i 0) := by
  rw [pass_eq_foldl_visits]
  refine (foldl_visits_preserves
    (P := fun s => Below levels s.levels ∧ (s.moves = [] ∧ s.levels = levels
      ∨ s.moves ≠ [] ∧ ∃ i, levels.getD i 0 < s.levels.getD i 0))
    (fun v hv => hv) ⟨Below.refl _, .inl ⟨rfl, rfl⟩⟩ ?_).2
  rintro s ⟨hs, hcases⟩ v hv
  have hi : v.1.2 < s.levels.length := by
    rw [← hs.length_eq, hlen]
    exact place_lt_of_mem_visits hv
  refine ⟨hs.trans (below_settleLiteral hi), ?_⟩
  rcases settleLiteral_cases rules v.1.1 v.1.2 s v.2 with ⟨h, -⟩ | ⟨need, move, -, hlt, h⟩
  · unfold visit
    rw [h]
    exact hcases
  · refine .inr ⟨?_, v.1.2, ?_⟩ <;> unfold visit <;> rw [h]
    · exact List.append_ne_nil_of_right_ne_nil _ (List.cons_ne_nil _ _)
    · show levels.getD v.1.2 0 < (s.levels.set v.1.2 need).getD v.1.2 0
      rw [getD_set hi, if_pos rfl]
      exact Nat.lt_of_le_of_lt (hs.le _) hlt

/-- Levels that a pass leaves alone meet the constraints. -/
theorem respects_of_pass_moves_eq_nil (hlen : levels.length = rules.length)
    (h : (pass rules levels).moves = []) : Respects rules (levels.getD · 0) := by
  refine respects_iff.2 fun i l d hreads => ?_
  have hle := le_pass_of_reads hlen hreads
  obtain ⟨-, heq⟩ := (pass_moves_cases hlen).resolve_right fun hmoved => hmoved.1 h
  rw [heq] at hle
  exact hle

end Pass

/-! ## All passes -/

theorem getD_map_zero (rules : List Rule) (i : Nat) : (rules.map fun _ => 0).getD i 0 = 0 := by
  rw [List.getD_eq_getElem?_getD, List.getElem?_map]
  cases rules[i]? <;> rfl

/-- The levels a successful run ends with: they meet the constraints, and no assignment that does
and that starts no lower has a rule lower. -/
theorem settle_eq_ok {rules : List Rule} {allowed done passes : Nat} {levels : List Nat}
    {moves : List Move} {strata : List Stratum} (hlen : levels.length = rules.length)
    (h : (settle rules allowed done levels moves).result = .ok (strata, passes)) :
    ∃ final : List Nat, final.length = rules.length ∧ strata = strataOf final
      ∧ Respects rules (final.getD · 0)
      ∧ ∀ f, Respects rules f → (∀ i, levels.getD i 0 ≤ f i) → ∀ i, final.getD i 0 ≤ f i := by
  induction allowed generalizing done levels moves with
  | zero => exact nomatch h
  | succ allowed ih =>
    unfold settle at h
    by_cases hmoves : (pass rules levels).moves = []
    · simp only [hmoves, if_true] at h
      cases h
      exact ⟨levels, hlen, rfl, respects_of_pass_moves_eq_nil hlen hmoves, fun f _ hf => hf⟩
    · simp only [hmoves, if_false] at h
      obtain ⟨final, hfinal, hstrata, hrespects, hleast⟩ :=
        ih ((below_pass hlen).length_eq.symm.trans hlen) h
      exact ⟨final, hfinal, hstrata, hrespects,
        fun f hf hle => hleast f hf (pass_le hlen hf hle)⟩

end Layering

end RulePlan
