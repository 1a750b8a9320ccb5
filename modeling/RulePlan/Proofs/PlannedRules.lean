import RulePlan.Proofs.ClosedEquations
import RulePlan.Proofs.ProgramTables
import RulePlan.Proofs.RuleOrder

/-!
# RulePlan.Proofs.PlannedRules — planning neither loses a rule nor repeats one

The strata share out the places of the rules, and each rule is compiled where it stands, into one
equation for each of its positive atoms. An equation carries the number of its rule. So the
equations of a plan are blocks, one for each rule, and picking out those with a given number gives
back a whole block: no other block has that number, because no other stratum has that rule.

The order of a stratum is that of the program, cut down to the predicates of its rules. None of
these is missing from the whole order, since bodies are listed in the graph and heads are
intensional.
-/

namespace RulePlan

/-! ## Lists and lines -/

/-- In lists that are related place by place, what stands on the right has a partner. -/
theorem exists_of_mem_right {α β : Type} {R : α → β → Prop} {xs : List α} {ys : List β}
    (h : List.Forall₂ R xs ys) {y : β} (hy : y ∈ ys) : ∃ x ∈ xs, R x y := by
  induction h with
  | nil => exact absurd hy List.not_mem_nil
  | @cons x y' xs ys hxy _ ih =>
    rcases List.mem_cons.1 hy with rfl | hy
    · exact ⟨x, List.mem_cons_self, hxy⟩
    · obtain ⟨z, hz, hzy⟩ := ih hy
      exact ⟨z, List.mem_cons_of_mem x hz, hzy⟩

/-- Rule lines are numbered upwards. -/
theorem SourceLine.pairwise_numberFrom (ps : List (List Char)) (n : Nat) :
    (numberFrom n ps).Pairwise (fun l m => l.number < m.number)
      ∧ ∀ l ∈ numberFrom n ps, n ≤ l.number := by
  induction ps generalizing n with
  | nil => exact ⟨List.Pairwise.nil, nofun⟩
  | cons piece ps ih =>
    obtain ⟨hsorted, hfrom⟩ := ih (n + 1)
    have hfirst : ∀ l ∈ (ofPiece? n piece).toList, l.number = n := by
      intro l hl
      have hpiece : ofPiece? n piece = some l := Option.mem_toList.1 hl
      unfold ofPiece? at hpiece
      dsimp only at hpiece
      split at hpiece
      · cases hpiece
      · rw [← Option.some.inj hpiece]
    rw [numberFrom]
    refine ⟨List.pairwise_append.2 ⟨?_, hsorted, ?_⟩, ?_⟩
    · cases ofPiece? n piece with
      | none => exact List.Pairwise.nil
      | some l => exact List.pairwise_singleton _ l
    · intro l hl m hm
      have hnumber := hfirst l hl
      have hafter := hfrom m hm
      omega
    · intro l hl
      rcases List.mem_append.1 hl with hl | hl
      · exact (hfirst l hl).ge
      · exact Nat.le_of_succ_le (hfrom l hl)

/-- The rules of a program stand on lines of their own, in order. -/
theorem Program.pairwise_line_of_ofSource {file source : String} {mode : Mode} {p : Program}
    (h : ofSource file source mode = .ok p) :
    p.rules.Pairwise fun r s => r.line < s.line := by
  have hread : ∀ (l : SourceLine) (r : Rule),
      (Rule.read l.number l.text).result.toOption = some r → r.line = l.number := by
    intro l r hr
    refine Intake.line_of_reads (l := l) ?_
    cases hresult : (Rule.read l.number l.text).result with
    | error fault => simp [hresult, Except.toOption] at hr
    | ok s => simpa [SourceLine.Reads, hresult, Except.toOption] using hr
  rw [rules_of_ofSource h]
  refine (SourceLine.pairwise_numberFrom _ 1).1.filterMap _ ?_
  intro l m hlt r hr s hs
  rw [hread l r hr, hread m s hs]
  exact Int.ofNat_lt.2 hlt

/-! ## The equations of a rule -/

/-- How an equation runs: the atom that drives it, and the one it consults, if any, with the role of
the driving atom. -/
structure Equation.Runs (e : Equation) (a : Atom) (other : Option (Orientation × Atom)) :
    Prop where
  driving : e.driving = a.predicate
  drivingArgs : e.drivingArgs = a.args
  consulting : e.consulting.map (fun c => (c.orientation, c.predicate, c.args))
    = other.map fun ob => (ob.1, ob.2.predicate, ob.2.args.map (Columns.ofArgs a.args).term)

namespace Compilation

/-- What a rule with a number is arranged into: an equation for its only positive atom, or one for
each of two, the first driving first, each consulting the atom that the other is driven by. -/
inductive Arranged (r : Rule) (number : Nat) : List Equation → Prop
  | alone {a : Atom} (hpos : r.positive = [a]) : Arranged r number [.ofRule r number a none]
  | joined {a b : Atom} (hpos : r.positive = [a, b])
      (viewName viewAlias viewName' viewAlias' : String) :
      Arranged r number
        [.ofRule r number a (some (.between .firstDrives a b viewName viewAlias)),
          .ofRule r number b (some (.between .secondDrives b a viewName' viewAlias'))]

theorem Arranged.rule_eq {r : Rule} {number : Nat} {equations : List Equation}
    (h : Arranged r number equations) : ∀ e ∈ equations, e.rule = number := by
  intro e he
  cases h with
  | alone => rw [List.mem_singleton.1 he]; rfl
  | joined =>
    rcases List.mem_cons.1 he with rfl | he
    · rfl
    · rw [List.mem_singleton.1 he]; rfl

theorem Arranged.eq_singleton {r : Rule} {number : Nat} {equations : List Equation}
    (h : Arranged r number equations) {a : Atom} (hpos : r.positive = [a]) :
    equations = [.ofRule r number a none] := by
  cases h with
  | alone hpos' => rw [List.singleton_inj.1 (hpos.symm.trans hpos')]
  | joined hpos' => cases hpos.symm.trans hpos'

/-- Each equation of a rule is driven by one of its positive atoms. -/
theorem Arranged.exists_lookup {r : Rule} {number : Nat} {equations : List Equation}
    (h : Arranged r number equations) : ∀ e ∈ equations, ∃ a consulting,
      Equation.Lookup r a consulting ∧ e = .ofRule r number a consulting := by
  intro e he
  cases h with
  | alone hpos => exact ⟨_, none, .alone hpos, List.mem_singleton.1 he⟩
  | joined hpos n m n' m' =>
    rcases List.mem_cons.1 he with rfl | he
    · exact ⟨_, _, .joined (.inl hpos) .firstDrives n m, rfl⟩
    · exact ⟨_, _, .joined (.inr hpos) .secondDrives n' m', List.mem_singleton.1 he⟩

section Accepted

variable {p : Program}

theorem exists_between {b : Atom} (hb : p.arity? b.predicate = some (b.arity : Int))
    (registry : ViewRegistry) (r : Rule) (number : Nat) (orientation : Orientation) (a : Atom) :
    ∃ viewName viewAlias, (binary p registry r number orientation a b).result
      = .ok [.ofRule r number a (some (.between orientation a b viewName viewAlias))] :=
  ⟨_, _, (binary_eq hb registry r number orientation a).2⟩

/-- An accepted rule is arranged, whatever views exist already. -/
theorem ofRule_arranged (hp : p.Accepted) {r : Rule} (hr : r ∈ p.rules) (registry : ViewRegistry)
    (number : Nat) :
    ∃ equations, (ofRule p registry r number).result = .ok equations
      ∧ Arranged r number equations := by
  rcases positive_cases (hp.safe r hr) with ⟨a, hpos⟩ | ⟨a, b, hpos⟩
  · exact ⟨_, by rw [ofRule_unary hp hr hpos registry number], .alone hpos⟩
  · obtain ⟨ha, hb⟩ := arity_pair hp hr hpos
    obtain ⟨viewName, viewAlias, hfirst⟩ := exists_between hb registry r number .firstDrives a
    obtain ⟨viewName', viewAlias', hsecond⟩ := exists_between ha
      (binary p registry r number .firstDrives a b).registry r number .secondDrives b
    refine ⟨_, ?_, .joined hpos viewName viewAlias viewName' viewAlias'⟩
    rw [ofRule_joined hp hr hpos]
    exact result_andThen hfirst hsecond

/-- Lists of equations, one for each of some rules with their places. -/
abbrev Blocks (rules : List (Rule × Nat)) (blocks : List (List Equation)) : Prop :=
  List.Forall₂ (fun ri equations => Arranged ri.1 (ri.2 + 1) equations) rules blocks

theorem ofRules_blocks (hp : p.Accepted) (rules : List (Rule × Nat))
    (hrules : ∀ ri ∈ rules, ri.1 ∈ p.rules) (registry : ViewRegistry) :
    ∃ blocks, (ofRules p registry rules).result = .ok blocks.flatten ∧ Blocks rules blocks := by
  induction rules generalizing registry with
  | nil => exact ⟨[], rfl, .nil⟩
  | cons ri rules ih =>
    obtain ⟨equations, hfirst, harranged⟩ :=
      ofRule_arranged hp (hrules ri List.mem_cons_self) registry (ri.2 + 1)
    obtain ⟨blocks, hrest, hblocks⟩ := ih (fun qj hqj => hrules qj (List.mem_cons_of_mem ri hqj))
      (ofRule p registry ri.1 (ri.2 + 1)).registry
    exact ⟨equations :: blocks, result_andThen hfirst hrest, .cons harranged hblocks⟩

end Accepted

section Blocks

variable {rules : List (Rule × Nat)} {blocks : List (List Equation)}

/-- An equation in one of the blocks has the number of a rule. -/
theorem Blocks.exists_of_mem (h : Blocks rules blocks) {e : Equation} (he : e ∈ blocks.flatten) :
    ∃ ri ∈ rules, e.rule = ri.2 + 1 := by
  obtain ⟨block, hblock, he⟩ := List.mem_flatten.1 he
  obtain ⟨ri, hri, harranged⟩ := exists_of_mem_right h hblock
  exact ⟨ri, hri, harranged.rule_eq e he⟩

theorem Blocks.filter_eq_nil (h : Blocks rules blocks) {i : Nat} (hi : i ∉ rules.map Prod.snd) :
    blocks.flatten.filter (·.rule == i + 1) = [] := by
  refine List.filter_eq_nil_iff.2 fun e he hrule => hi ?_
  obtain ⟨ri, hri, heq⟩ := h.exists_of_mem he
  obtain rfl : ri.2 = i := Nat.succ.inj (heq.symm.trans (eq_of_beq hrule))
  exact List.mem_map.2 ⟨ri, hri, rfl⟩

/-- If every place occurs once, the equations with the number of a rule are its block. -/
theorem Blocks.filter_arranged (h : Blocks rules blocks) (hnodup : (rules.map Prod.snd).Nodup)
    {r : Rule} {i : Nat} (hmem : (r, i) ∈ rules) :
    Arranged r (i + 1) (blocks.flatten.filter (·.rule == i + 1)) := by
  induction h with
  | nil => exact absurd hmem List.not_mem_nil
  | @cons ri equations rules blocks harranged hblocks ih =>
    obtain ⟨hnew, hnodup⟩ := List.nodup_cons.1 hnodup
    rw [List.flatten_cons, List.filter_append]
    rcases List.mem_cons.1 hmem with rfl | hmem
    · -- the first block is meant, and the place does not come up again
      have hall : equations.filter (·.rule == i + 1) = equations :=
        List.filter_eq_self.2 fun e he => beq_iff_eq.2 (harranged.rule_eq e he)
      rw [hall, Blocks.filter_eq_nil hblocks hnew, List.append_nil]
      exact harranged
    · have hne : ri.2 ≠ i := by
        rintro rfl
        exact hnew (List.mem_map.2 ⟨_, hmem, rfl⟩)
      have hnone : equations.filter (·.rule == i + 1) = [] := by
        refine List.filter_eq_nil_iff.2 fun e he hrule => hne ?_
        exact Nat.succ.inj ((harranged.rule_eq e he).symm.trans (eq_of_beq hrule))
      rw [hnone, List.nil_append]
      exact ih hnodup hmem

end Blocks

theorem Arranged.runs {r : Rule} {number : Nat} {equations : List Equation}
    (h : Arranged r number equations) :
    (∃ a e, r.positive = [a] ∧ equations = [e] ∧ e.Runs a none)
      ∨ ∃ a b e f, r.positive = [a, b] ∧ equations = [e, f]
        ∧ e.Runs a (some (.firstDrives, b)) ∧ f.Runs b (some (.secondDrives, a)) := by
  cases h with
  | alone hpos => exact .inl ⟨_, _, hpos, rfl, rfl, rfl, rfl⟩
  | joined hpos =>
    exact .inr ⟨_, _, _, _, hpos, rfl, ⟨rfl, rfl, rfl⟩, rfl, rfl, rfl⟩

end Compilation

/-! ## Rules and equations of the strata -/

/-- Strata that share out the places hold each of them once. -/
theorem Layering.Partitions.perm_range {n : Nat} {strata : List Stratum}
    (h : Partitions n strata) : (strata.flatMap Stratum.rules).Perm (List.range n) := by
  have hnodup : strata.Nodup := by
    refine List.Nodup.of_map Stratum.index ?_
    rw [h.numbered]
    exact List.nodup_range
  have hdisjoint : ∀ s ∈ strata, ∀ t ∈ strata, s ≠ t → List.Disjoint s.rules t.rules := by
    intro s hs t ht hne i his hit
    obtain ⟨u, -, hu⟩ := h.unique i (h.within s hs i his)
    exact hne ((hu s ⟨hs, his⟩).trans (hu t ⟨ht, hit⟩).symm)
  have hplaces : (strata.flatMap Stratum.rules).Nodup :=
    List.nodup_flatMap.2 ⟨fun s hs => (h.ascending s hs).imp Nat.ne_of_lt,
      hnodup.pairwise_of_forall_ne hdisjoint⟩
  refine (List.perm_ext_iff_of_nodup hplaces List.nodup_range).2 fun i => ?_
  rw [List.mem_flatMap, List.mem_range]
  constructor
  · rintro ⟨s, hs, his⟩
    exact h.within s hs i his
  · intro hi
    obtain ⟨s, hs, -⟩ := h.unique i hi
    exact ⟨s, hs⟩

/-- The strata of a program place each rule where it stands, once. -/
theorem Stratum.placed_perm {p : Program} {strata : List Stratum}
    (h : Layering.Partitions p.rules.length strata) :
    (strata.flatMap (placed p)).Perm p.rules.zipIdx := by
  have hall : (List.range p.rules.length).filterMap (fun i => p.rules[i]?.map (·, i))
      = p.rules.zipIdx := by
    rw [List.range_eq_range', ← List.zipIdx_map_snd 0 p.rules, List.filterMap_map]
    conv_rhs => rw [← List.filterMap_some (l := p.rules.zipIdx)]
    refine List.filterMap_congr fun ri hri => ?_
    have hat := List.mem_zipIdx_iff_getElem?.1 hri
    simp [hat]
  rw [← hall]
  unfold placed
  rw [← List.filterMap_flatMap]
  exact h.perm_range.filterMap _

/-- What a stratum is compiled to, with the predicates of its rules in the order of the program. -/
structure StratumPlan.Arranges (p : Program) (order : EvalOrder) (s : Stratum)
    (plan : StratumPlan) : Prop where
  rules : plan.rules = (s.placed p).map Prod.fst
  order : plan.order = order.restrict (plan.rules.flatMap Rule.predicates)
  equations : ∃ blocks, plan.equations = blocks.flatten
    ∧ Compilation.Blocks (s.placed p) blocks

theorem StratumPlan.ofStratum_arranges {p : Program} (hp : p.Accepted) {order : EvalOrder}
    {registry : ViewRegistry} {s : Stratum} {plan : StratumPlan}
    (h : (ofStratum p order registry s).result = .ok plan) : Arranges p order s plan := by
  obtain ⟨hequations, -, hrules, -⟩ := parts_of_ofStratum h
  obtain ⟨blocks, hblocks, harranged⟩ :=
    Compilation.ofRules_blocks hp (s.placed p) Stratum.mem_rules_of_placed registry
  have hplaced : plan.rules = (s.placed p).map Prod.fst :=
    hrules.trans (Stratum.map_fst_placed p s).symm
  refine ⟨hplaced, ?_, blocks, Except.ok.inj (hequations.symm.trans hblocks), harranged⟩
  rw [hplaced, List.flatMap_map]
  unfold ofStratum at h
  dsimp only at h
  cases hresult : (Compilation.ofRules p registry (s.placed p)).result with
  | error d => exact nomatch hequations.symm.trans hresult
  | ok equations =>
    unfold Stratum.placed at hresult
    rw [hresult] at h
    exact congrArg StratumPlan.order (Except.ok.inj h).symm

/-- Every stratum is compiled where it stands. -/
theorem Plan.strataStage_arranges {p : Program} (hp : p.Accepted) {order : EvalOrder}
    {strata : List Stratum} {registry : ViewRegistry} {plans : List StratumPlan}
    (h : (strataStage p order registry strata).result = .ok plans) :
    List.Forall₂ (StratumPlan.Arranges p order) strata plans := by
  obtain ⟨final, hrun⟩ := strataStage_eq_ok_iff.1 h
  clear h
  induction hrun with
  | nil registry => exact .nil
  | cons hplan _ ih => exact .cons (StratumPlan.ofStratum_arranges hp hplan) ih

section Strata

variable {p : Program} {order : EvalOrder} {strata : List Stratum} {plans : List StratumPlan}

theorem StratumPlan.Arranges.rules_flatMap
    (h : List.Forall₂ (Arranges p order) strata plans) :
    plans.flatMap StratumPlan.rules = (strata.flatMap (Stratum.placed p)).map Prod.fst := by
  induction h with
  | nil => rfl
  | cons harranges _ ih =>
    rw [List.flatMap_cons, List.flatMap_cons, List.map_append, harranges.rules, ih]

/-- The equations of all strata together are blocks too, for the rules of all strata. -/
theorem StratumPlan.Arranges.blocks_flatMap
    (h : List.Forall₂ (Arranges p order) strata plans) :
    ∃ blocks, plans.flatMap StratumPlan.equations = blocks.flatten
      ∧ Compilation.Blocks (strata.flatMap (Stratum.placed p)) blocks := by
  induction h with
  | nil => exact ⟨[], rfl, .nil⟩
  | cons harranges _ ih =>
    obtain ⟨blocks, hequations, hblocks⟩ := harranges.equations
    obtain ⟨more, hrest, hmore⟩ := ih
    refine ⟨blocks ++ more, ?_, List.rel_append hblocks hmore⟩
    rw [List.flatMap_cons, List.flatten_append, hequations, hrest]

end Strata

/-! ## Predicates of the strata -/

theorem EvalOrder.all_restrict (o : EvalOrder) (names : Names) :
    (o.restrict names).all = o.all.filter (· ∈ names) := by
  unfold all restrict
  rw [List.filter_append, List.filter_append]

/-- Every predicate of a program has a place in its order. -/
theorem Program.mem_orderOf {file source : String} {mode : Mode} {p : Program}
    (h : ofSource file source mode = .ok p) {r : Rule} (hr : r ∈ p.rules) {x : String}
    (hx : x ∈ r.predicates) : x ∈ (Plan.orderOf p).all := by
  rw [Plan.orderOf, EvalOrder.all_perm.mem_iff, EvalOrder.mem_members_iff]
  obtain ⟨a, ha, rfl⟩ := List.mem_map.1 hx
  rcases List.mem_cons.1 ha with rfl | ha
  · exact .inr (.inl ((mem_intensional_iff h).2 ⟨r, hr, rfl⟩))
  · obtain ⟨l, hl, rfl⟩ := List.mem_map.1 ha
    exact .inl ((mem_keys_iff h).2 ⟨r, hr, l, hl, rfl⟩)

/-! ## Plans -/

namespace Plan

/-- A plan accounts for the rules of its program: they are those of the source, each is in one
stratum, and by its number each has an equation for every positive atom, in order. Strata have no
other equations, and order the predicates of their rules as the program does. -/
structure Accounts (plan : Plan) (lines : List SourceLine) : Prop where
  source : List.Forall₂ SourceLine.Reads lines plan.program.rules
  rules : plan.rules.Perm plan.program.rules
  stratum : ∀ r ∈ plan.program.rules,
    ∃! j : Nat, ∃ s : StratumPlan, plan.strata[j]? = some s ∧ r ∈ s.rules
  equations : ∀ i r, plan.program.rules[i]? = some r →
    (∃ a e, r.positive = [a] ∧ plan.equations.filter (·.rule == i + 1) = [e] ∧ e.Runs a none)
      ∨ ∃ a b e f, r.positive = [a, b] ∧ plan.equations.filter (·.rule == i + 1) = [e, f]
        ∧ e.Runs a (some (.firstDrives, b)) ∧ f.Runs b (some (.secondDrives, a))
  others : ∀ s ∈ plan.strata, ∀ e ∈ s.equations,
    ∃ i, ∃ r ∈ s.rules, plan.program.rules[i]? = some r ∧ e.rule = i + 1
  order : ∀ s ∈ plan.strata, s.order.all.Sublist plan.order.all
    ∧ ∀ x, x ∈ s.order.all ↔ ∃ r ∈ s.rules, x ∈ r.predicates

/-- Of lists that hold every element once, only one holds a given element. -/
theorem existsUnique_stratum {strata : List StratumPlan}
    (hnodup : (strata.flatMap StratumPlan.rules).Nodup) {r : Rule}
    (hr : r ∈ strata.flatMap StratumPlan.rules) :
    ∃! j : Nat, ∃ s : StratumPlan, strata[j]? = some s ∧ r ∈ s.rules := by
  obtain ⟨s, hs, hrs⟩ := List.mem_flatMap.1 hr
  obtain ⟨j, hj⟩ := List.getElem?_of_mem hs
  refine ⟨j, ⟨s, hj, hrs⟩, ?_⟩
  rintro i ⟨t, hi, hrt⟩
  by_contra hne
  have hdisjoint := (List.nodup_flatMap.1 hnodup).2
  obtain ⟨hilt, rfl⟩ := List.getElem?_eq_some_iff.1 hi
  obtain ⟨hjlt, rfl⟩ := List.getElem?_eq_some_iff.1 hj
  rcases Nat.lt_or_gt_of_ne hne with hlt | hlt
  · exact List.pairwise_iff_getElem.1 hdisjoint i j hilt hjlt hlt hrt hrs
  · exact List.pairwise_iff_getElem.1 hdisjoint j i hjlt hilt hlt hrs hrt

/-- The strata of a plan hold the rules of its program, each once. -/
theorem rules_perm_of_compile {request : Request} {plan : Plan}
    (h : (compile request).result = .ok plan) : plan.rules.Perm plan.program.rules := by
  obtain ⟨p, strata, passes, plans, hsource, hlayering, hplans, -, rfl⟩ := compile_eq_ok_iff.1 h
  have hall := strataStage_arranges (Program.accepted_of_ofSource hsource) hplans
  have hperm := Stratum.placed_perm (Layering.partitions_of_ofProgram hlayering)
  show (plans.flatMap StratumPlan.rules).Perm p.rules
  rw [StratumPlan.Arranges.rules_flatMap hall, ← List.zipIdx_map_fst 0 p.rules]
  exact hperm.map Prod.fst

/-- The equations of a plan are blocks, one for each rule of its program. -/
theorem blocks_of_compile {request : Request} {plan : Plan}
    (h : (compile request).result = .ok plan) :
    ∃ places blocks, places.Perm plan.program.rules.zipIdx ∧ plan.equations = blocks.flatten
      ∧ Compilation.Blocks places blocks := by
  obtain ⟨p, strata, passes, plans, hsource, hlayering, hplans, -, rfl⟩ := compile_eq_ok_iff.1 h
  have hall := strataStage_arranges (Program.accepted_of_ofSource hsource) hplans
  obtain ⟨blocks, hequations, hblocks⟩ := StratumPlan.Arranges.blocks_flatMap hall
  exact ⟨_, blocks, Stratum.placed_perm (Layering.partitions_of_ofProgram hlayering), hequations,
    hblocks⟩

/-- The equations with the number of a rule are those that it is arranged into. -/
theorem arranged_of_compile {request : Request} {plan : Plan}
    (h : (compile request).result = .ok plan) {i : Nat} {r : Rule}
    (hi : plan.program.rules[i]? = some r) :
    Compilation.Arranged r (i + 1) (plan.equations.filter (·.rule == i + 1)) := by
  obtain ⟨places, blocks, hperm, hequations, hblocks⟩ := blocks_of_compile h
  have hplaces : (places.map Prod.snd).Nodup := by
    refine (hperm.map Prod.snd).nodup_iff.2 ?_
    rw [List.zipIdx_map_snd]
    exact List.nodup_range'
  rw [hequations]
  exact hblocks.filter_arranged hplaces (hperm.mem_iff.2 (List.mem_zipIdx_iff_getElem?.2 hi))

/-- Every equation of a plan is driven by a positive atom of a rule, and has its number. -/
theorem exists_lookup_of_compile {request : Request} {plan : Plan}
    (h : (compile request).result = .ok plan) {e : Equation} (he : e ∈ plan.equations) :
    ∃ i r a consulting, plan.program.rules[i]? = some r ∧ Equation.Lookup r a consulting
      ∧ e = .ofRule r (i + 1) a consulting := by
  obtain ⟨places, blocks, hperm, hequations, hblocks⟩ := blocks_of_compile h
  rw [hequations] at he
  obtain ⟨block, hblock, he⟩ := List.mem_flatten.1 he
  obtain ⟨⟨r, i⟩, hri, harranged⟩ := exists_of_mem_right hblocks hblock
  obtain ⟨a, consulting, hlookup, heq⟩ := harranged.exists_lookup e he
  exact ⟨i, r, a, consulting, List.mem_zipIdx_iff_getElem?.1 (hperm.mem_iff.1 hri), hlookup, heq⟩

/-- **Planning neither loses a rule nor repeats one.** Whatever the source, its lines and the rules
of the compiled program correspond one to one, and each of these rules is in exactly one stratum.
The equations with the number of a rule are one for each of its positive atoms, in order, driven by
that atom with its arguments; of two atoms each equation consults the other. There are no further
equations, and each stands in the stratum of its rule. The order of a stratum is part of the order
of the program and has exactly the predicates of the rules of the stratum. -/
theorem accounts_of_compile {request : Request} {plan : Plan}
    (h : (compile request).result = .ok plan) :
    plan.Accounts (SourceLine.ofSource request.source) := by
  obtain ⟨p, strata, passes, plans, hsource, -, hplans, -, rfl⟩ := compile_eq_ok_iff.1 h
  have hp := Program.accepted_of_ofSource hsource
  have hall := strataStage_arranges hp hplans
  have hrules : (plans.flatMap StratumPlan.rules).Perm p.rules := rules_perm_of_compile h
  -- equal rules would stand on the same line
  have hnodup : p.rules.Nodup := by
    refine (Program.pairwise_line_of_ofSource hsource).imp ?_
    rintro r _ hlt rfl
    exact lt_irrefl _ hlt
  refine
    { source := (Program.interns_of_ofSource hsource).1
      rules := hrules
      stratum := ?_
      equations := fun i r hi => (arranged_of_compile h hi).runs
      others := ?_
      order := ?_ }
  · intro r hr
    exact existsUnique_stratum (hrules.nodup_iff.2 hnodup) (hrules.mem_iff.2 hr)
  · intro plan hplan e he
    obtain ⟨s, -, harranges⟩ := exists_of_mem_right hall hplan
    obtain ⟨blocks', hown, hblocks'⟩ := harranges.equations
    rw [hown] at he
    obtain ⟨ri, hri, hrule⟩ := Compilation.Blocks.exists_of_mem hblocks' he
    refine ⟨ri.2, ri.1, ?_, Stratum.getElem?_of_placed ri hri, hrule⟩
    rw [harranges.rules]
    exact List.mem_map.2 ⟨ri, hri, rfl⟩
  · intro plan hplan
    obtain ⟨s, -, harranges⟩ := exists_of_mem_right hall hplan
    rw [harranges.order, EvalOrder.all_restrict]
    refine ⟨List.filter_sublist, fun x => ?_⟩
    rw [List.mem_filter, decide_eq_true_eq, List.mem_flatMap]
    refine and_iff_right_of_imp ?_
    rintro ⟨r, hr, hx⟩
    have hmem : r ∈ p.rules := hrules.mem_iff.1 (List.mem_flatMap.2 ⟨plan, hplan, hr⟩)
    exact Program.mem_orderOf hsource hmem hx

/-- A rule that waits for a stratum below it, and there a rule that joins two atoms. -/
def nearRequest : Request :=
  ⟨"near.dl", "far(X) :- node(X), not near(X).\nnear(Y) :- near(X), edge(X, Y).", [], .failFast⟩

theorem accounts_of_compile_near : ∃ plan, (compile nearRequest).result = .ok plan
    ∧ plan.Accounts (SourceLine.ofSource nearRequest.source) := by
  obtain ⟨plan, hplan⟩ := compile_isOk_of_negatesLast (r := nearRequest) (by decide +kernel)
  exact ⟨plan, hplan, accounts_of_compile hplan⟩

end Plan

end RulePlan
