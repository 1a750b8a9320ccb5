import RulePlan.Proofs.Reordering
import RulePlan.Proofs.ViewShapes

/-!
# RulePlan.Proofs.RuleOrder — the plan does not depend on the order of the rules

Passes raise rules in source order, but where they end is the least assignment of levels, and that
notion knows no order: an assignment for the rules in one order carries over to any other, so the
same rule has the same level in both. The strata therefore hold the same rules. Everything else in
a plan is read off these: the equations of a rule leave the same footprints wherever it stands, so
the numbers of equations and views and the predicates to keep agree, and the evaluation order is a
function of sets that agree.
-/

namespace RulePlan

namespace Layering

/-! ## Levels -/

/-- The same rule stands at both places, in two lists of rules. -/
def SameAt (rules rules' : List Rule) (i j : Nat) : Prop :=
  ∃ r r', rules[i]? = some r ∧ rules'[j]? = some r' ∧ r.unplaced = r'.unplaced

theorem SameAt.symm {rules rules' : List Rule} {i j : Nat} (h : SameAt rules rules' i j) :
    SameAt rules' rules j i := by
  obtain ⟨r, r', hr, hr', hsame⟩ := h
  exact ⟨r', r, hr', hr, hsame.symm⟩

theorem Reads.transport {rules rules' : List Rule} {i j d e : Nat} {l : Literal}
    (h : Reads rules i l d) (hij : SameAt rules rules' i j) (hde : SameAt rules rules' d e) :
    Reads rules' j l e := by
  obtain ⟨⟨r, hr, hl⟩, q, hq, hhead⟩ := h
  obtain ⟨r₁, r', hr₁, hr', hsame⟩ := hij
  obtain ⟨q₁, q', hq₁, hq', hsame'⟩ := hde
  obtain rfl : r = r₁ := Option.some.inj (hr.symm.trans hr₁)
  obtain rfl : q = q₁ := Option.some.inj (hq.symm.trans hq₁)
  have hliterals : r.unplaced.literals = r'.literals := by rw [hsame]; rfl
  have hheads : q.unplaced.head = q'.head := by rw [hsame']; rfl
  exact ⟨⟨r', hr', hliterals ▸ hl⟩, q', hq', hheads ▸ hhead⟩

section Levels

variable {rules rules' : List Rule} {levels levels' : List Nat}

theorem exists_sameAt (h : Rule.Permutes rules rules') {i : Nat} (hi : i < rules.length) :
    ∃ j, SameAt rules rules' i j := by
  have hmem : rules[i].unplaced ∈ rules'.map Rule.unplaced :=
    (List.Perm.mem_iff h).1 (List.mem_map_of_mem (List.getElem_mem hi))
  obtain ⟨r', hr', hsame⟩ := List.mem_map.1 hmem
  obtain ⟨j, hj⟩ := List.mem_iff_getElem?.1 hr'
  exact ⟨j, rules[i], r', List.getElem?_eq_getElem hi, hj, hsame.symm⟩

/-- No rule stands higher in the least assignment than the same rule does in any assignment, the
rules being in any order. -/
theorem level_le_of_sameAt (h : Rule.Permutes rules rules')
    (hleast : ∀ f, Respects rules f → ∀ i, levels.getD i 0 ≤ f i) {f : Nat → Nat}
    (hf : Respects rules' f) {i j : Nat} (hij : SameAt rules rules' i j) :
    levels.getD i 0 ≤ f j := by
  -- send every place to one with the same rule, and this place to the one in question
  have hplace : ∀ k : Nat, ∃ m : Nat, k < rules.length → SameAt rules rules' k m := by
    intro k
    by_cases hk : k < rules.length
    · obtain ⟨m, hm⟩ := exists_sameAt h hk
      exact ⟨m, fun _ => hm⟩
    · exact ⟨0, fun hlt => absurd hlt hk⟩
  choose place hplace using hplace
  have hsame : ∀ k < rules.length, SameAt rules rules' k (Function.update place i j k) := by
    intro k hk
    by_cases hki : k = i
    · subst hki
      rw [Function.update_self]
      exact hij
    · rw [Function.update_of_ne hki]
      exact hplace k hk
  have hrespects : Respects rules fun k => f (Function.update place i j k) := by
    intro k l d hreads
    obtain ⟨hk, hd⟩ := hreads.lt_length
    exact hf _ l _ (hreads.transport (hsame k hk) (hsame d hd))
  have hle := hleast _ hrespects i
  rwa [Function.update_self] at hle

/-- Levels that meet the constraints, none of them higher than need be. -/
structure Least (rules : List Rule) (levels : List Nat) : Prop where
  length_eq : levels.length = rules.length
  respects : Respects rules (levels.getD · 0)
  least : ∀ f, Respects rules f → ∀ i, levels.getD i 0 ≤ f i

theorem Least.level_eq (hl : Least rules levels) (hl' : Least rules' levels')
    (h : Rule.Permutes rules rules') {i j : Nat} (hij : SameAt rules rules' i j) :
    levels.getD i 0 = levels'.getD j 0 :=
  Nat.le_antisymm (level_le_of_sameAt h hl.least hl'.respects hij)
    (level_le_of_sameAt h.symm hl'.least hl.respects hij.symm)

/-- The level of a rule is a function of the rule, wherever it stands. -/
theorem Least.exists_level (hl : Least rules levels) (hl' : Least rules' levels')
    (h : Rule.Permutes rules rules') :
    ∃ level : Rule → Nat, levels = rules.map (level ·.unplaced)
      ∧ levels' = rules'.map (level ·.unplaced) := by
  let level (x : Rule) : Nat := levels.getD ((rules.map Rule.unplaced).idxOf x) 0
  -- the first place of a rule speaks for all its places, here and there
  have hfirst : ∀ {ms : List Rule} {ls : List Nat}, Least ms ls → Rule.Permutes rules ms →
      ls = ms.map (level ·.unplaced) := by
    intro ms ls hls hperm
    refine List.ext_getElem (by rw [hls.length_eq, List.length_map]) ?_
    intro j hj hj'
    rw [List.length_map] at hj'
    have hmem : ms[j].unplaced ∈ rules.map Rule.unplaced :=
      (List.Perm.mem_iff hperm).2 (List.mem_map_of_mem (List.getElem_mem hj'))
    have hlt := List.idxOf_lt_length_iff.2 hmem
    have hat := List.getElem_idxOf hlt
    rw [List.getElem_map] at hat
    rw [List.length_map] at hlt
    have hsame : SameAt rules ms ((rules.map Rule.unplaced).idxOf ms[j].unplaced) j :=
      ⟨_, ms[j], List.getElem?_eq_getElem hlt, List.getElem?_eq_getElem hj', hat⟩
    have hlevel := hl.level_eq hls hperm hsame
    rw [List.getD_eq_getElem ls 0 hj] at hlevel
    rw [List.getElem_map]
    exact hlevel.symm
  exact ⟨level, hfirst hl (List.Perm.refl _), hfirst hl' h⟩

end Levels

/-! ## Strata -/

/-- The rules at the places of a level are the rules of that level. -/
theorem filterMap_places (rules : List Rule) (level : Rule → Nat) (v : Nat) :
    (places (rules.map level) v).filterMap (rules[·]?) = rules.filter (level · == v) := by
  unfold places
  rw [List.zipIdx_map, List.filter_map, List.map_map, List.filterMap_map]
  have hplace : ∀ ri ∈ rules.zipIdx.filter ((fun x => x.1 == v) ∘ Prod.map level id),
      ((rules[·]?) ∘ Prod.snd ∘ Prod.map level id) ri = some ri.1 := by
    intro ri hri
    exact List.mem_zipIdx_iff_getElem?.1 (List.mem_filter.1 hri).1
  rw [List.filterMap_congr hplace, List.filterMap_eq_map']
  conv_rhs => rw [← List.zipIdx_map_fst 0 rules, List.filter_map]
  rfl

theorem outline_strataOf {p : Program} {level : Rule → Nat} :
    (strataOf (p.rules.map level)).map (Stratum.outline p)
      = (used (p.rules.map level)).zipIdx.map fun v =>
        (v.2, p.rules.filter (level · == v.1)) := by
  rw [strataOf_eq, List.map_map]
  refine List.map_congr_left fun v _ => ?_
  exact congrArg (Prod.mk v.2) (filterMap_places p.rules level v.1)

theorem used_eq_of_perm {levels levels' : List Nat} (h : levels.Perm levels') :
    used levels = used levels' := by
  have hperm : (used levels).Perm (used levels') := by
    refine (List.perm_ext_iff_of_nodup ((pairwise_used levels).imp Nat.ne_of_lt)
      ((pairwise_used levels').imp Nat.ne_of_lt)).2 fun v => ?_
    rw [mem_used, mem_used]
    exact h.mem_iff
  exact hperm.eq_of_pairwise' (pairwise_used levels) (pairwise_used levels')

theorem least_of_ofProgram {p : Program} {strata : List Stratum} {passes : Nat}
    (h : (ofProgram p).result = .ok (strata, passes)) :
    ∃ levels, Least p.rules levels ∧ strata = strataOf levels := by
  obtain ⟨levels, hlen, hstrata, hrespects, hleast⟩ := levels_of_ofProgram h
  exact ⟨levels, ⟨hlen, hrespects, hleast⟩, hstrata⟩

/-- Rules in another order get the same strata. -/
theorem outline_of_permutes {p p' : Program} (h : Rule.Permutes p.rules p'.rules)
    {strata strata' : List Stratum} {passes passes' : Nat}
    (hp : (ofProgram p).result = .ok (strata, passes))
    (hp' : (ofProgram p').result = .ok (strata', passes')) :
    List.Forall₂ (fun a b => a.1 = b.1 ∧ Rule.Permutes a.2 b.2) (strata.map (Stratum.outline p))
      (strata'.map (Stratum.outline p')) := by
  obtain ⟨levels, hl, rfl⟩ := least_of_ofProgram hp
  obtain ⟨levels', hl', rfl⟩ := least_of_ofProgram hp'
  obtain ⟨level, rfl, rfl⟩ := hl.exists_level hl' h
  rw [outline_strataOf, outline_strataOf, used_eq_of_perm (h.map fun _ => rfl)]
  refine List.forall₂_map_left_iff.2 (List.forall₂_map_right_iff.2 (List.forall₂_same.2 ?_))
  intro v _
  refine ⟨rfl, ?_⟩
  have hfilter : ∀ l : List Rule, (l.filter (level ·.unplaced == v.1)).map Rule.unplaced
      = (l.map Rule.unplaced).filter (level · == v.1) := by
    intro l
    rw [List.filter_map]
    rfl
  unfold Rule.Permutes
  rw [hfilter, hfilter]
  exact List.Perm.filter _ h

/-- Rules in another order have layers too. -/
theorem ofProgram_isOk_of_permutes {p p' : Program} (hgraph : p.graph = Program.graphOf p.rules)
    (hgraph' : p'.graph = Program.graphOf p'.rules) (hrules : Rule.Permutes p.rules p'.rules)
    (hedge : ∀ x y, p.graph.Edge x y ↔ p'.graph.Edge x y) {strata : List Stratum} {passes : Nat}
    (h : (ofProgram p).result = .ok (strata, passes)) :
    ∃ strata' passes', (ofProgram p').result = .ok (strata', passes') := by
  have hnone : ∀ r ∈ p.rules, ¬p.RecursesThroughNegation r := by
    rw [← negativeCycle?_eq_none_iff hgraph]
    unfold ofProgram at h
    cases hcycle : negativeCycle? p with
    | none => rfl
    | some fault =>
      rw [hcycle] at h
      exact nomatch h
  have hsame : p.graph.Edge = p'.graph.Edge := by
    funext x y
    exact propext (hedge x y)
  have hrecurses : p.RecursesThroughNegation = p'.RecursesThroughNegation := by
    funext r
    unfold Program.RecursesThroughNegation Graph.Reaches
    rw [hsame]
  rw [hrecurses, hrules.forall_iff fun _ => Iff.rfl] at hnone
  obtain ⟨strata', passes', hok, -⟩ := ofProgram_isOk hgraph' hnone
  exact ⟨strata', passes', hok⟩

end Layering

/-! ## Predicates to keep -/

namespace Solution

/-- The same predicates for the same reasons, listed in any order. -/
def SameReasons (a b : List (String × List Reason)) : Prop :=
  List.Forall₂ (fun x y => x.1 = y.1 ∧ ∀ reason, reason ∈ x.2 ↔ reason ∈ y.2) a b

/-- The predicates to keep depend on the set of requirements alone. -/
theorem sameReasons_of_mem_iff {required required' : List (String × Reason)}
    (h : ∀ q, q ∈ required ↔ q ∈ required') :
    SameReasons (ofRequirements required) (ofRequirements required') := by
  have hnames : Names.sorted (Names.ofList (required.map Prod.fst))
      = Names.sorted (Names.ofList (required'.map Prod.fst)) := by
    refine Names.sorted_eq_of_mem_iff (Names.nodup_ofList _) (Names.nodup_ofList _) fun x => ?_
    simp only [Names.mem_ofList, List.mem_map, h]
  unfold SameReasons ofRequirements
  rw [hnames]
  refine List.forall₂_map_left_iff.2 (List.forall₂_map_right_iff.2 (List.forall₂_same.2 ?_))
  intro name _
  refine ⟨rfl, fun reason => ?_⟩
  simp only [List.mem_eraseDups, List.mem_map, List.mem_filter, h]

end Solution

/-! ## Plans -/

namespace Plan

/-- Plans that differ in nothing but the order of rules and the names of views. -/
structure Alike (plan plan' : Plan) : Prop where
  program : plan.program.Alike plan'.program
  order : plan.order = plan'.order
  strata : List.Forall₂ (fun s s' => s.index = s'.index
    ∧ (s.rules.map Rule.render).Perm (s'.rules.map Rule.render)) plan.strata plan'.strata
  equationCount : plan.equationCount = plan'.equationCount
  viewCount : plan.viewCount = plan'.viewCount
  solution : Solution.SameReasons plan.solution plan'.solution

section Reordered

variable {r r' : Request} {plan plan' : Plan}

theorem source_of_compile (h : (compile r).result = .ok plan) :
    Program.ofSource r.file r.source r.mode = .ok plan.program := by
  obtain ⟨p, strata, passes, plans, hsource, -, -, -, rfl⟩ := compile_eq_ok_iff.1 h
  exact hsource

theorem order_of_compile (h : (compile r).result = .ok plan) :
    plan.order = orderOf plan.program := by
  obtain ⟨p, strata, passes, plans, -, -, -, -, rfl⟩ := compile_eq_ok_iff.1 h
  rfl

/-- Lines in another order compile. -/
theorem compile_isOk_of_permutes (hlines : SourceLine.Permutes r.source r'.source)
    (houtputs : r.outputs = r'.outputs) (h : (compile r).result = .ok plan) :
    ∃ plan', (compile r').result = .ok plan' := by
  obtain ⟨p, strata, passes, plans, hsource, hlayering, -, hknown, -⟩ := compile_eq_ok_iff.1 h
  obtain ⟨p', hsource', hrules⟩ :=
    Program.ofSource_of_permutes hlines hsource r'.file r'.mode
  have halike := Program.alike_of_permutes hsource hsource' hrules
  obtain ⟨strata', passes', hlayering'⟩ := Layering.ofProgram_isOk_of_permutes
    (Program.graph_of_ofSource hsource) (Program.graph_of_ofSource hsource') hrules halike.edge
    hlayering
  obtain ⟨plans', -, hplans', -⟩ := strataStage_compiles
    (Program.accepted_of_ofSource hsource') (orderOf p') strata' ViewRegistry.tidy_empty
  have hknown' : Solution.unknownOutput? p' (Solution.outputs r'.outputs) = none := by
    rw [Solution.unknownOutput?_eq_none_iff_mentions hsource']
    rw [Solution.unknownOutput?_eq_none_iff_mentions hsource, houtputs] at hknown
    intro name hname hne
    exact (Program.mentions_iff_of_permutes hrules).1 (hknown name hname hne)
  exact ⟨_, compile_eq_ok_iff.2
    ⟨p', strata', passes', plans', hsource', hlayering', hplans', hknown', rfl⟩⟩

theorem permutes_flatMap {ss ss' : List StratumPlan}
    (h : List.Forall₂ (fun s s' => Rule.Permutes s.rules s'.rules) ss ss') :
    Rule.Permutes (ss.flatMap StratumPlan.rules) (ss'.flatMap StratumPlan.rules) := by
  unfold Rule.Permutes at h ⊢
  induction h with
  | nil => exact List.Perm.refl _
  | cons hs _ ih =>
    rw [List.flatMap_cons, List.flatMap_cons, List.map_append, List.map_append]
    exact hs.append ih

/-- The strata of two plans with the same rules in another order. -/
theorem strata_of_permutes (h : (compile r).result = .ok plan)
    (h' : (compile r').result = .ok plan')
    (hrules : Rule.Permutes plan.program.rules plan'.program.rules) :
    List.Forall₂ (fun s s' => s.index = s'.index ∧ Rule.Permutes s.rules s'.rules) plan.strata
      plan'.strata := by
  obtain ⟨strata, passes, -, hlayering, -, houtlines, -⟩ := exists_compiles_of_compile h
  obtain ⟨strata', passes', -, hlayering', -, houtlines', -⟩ := exists_compiles_of_compile h'
  have hall := Layering.outline_of_permutes hrules hlayering hlayering'
  rw [← houtlines, ← houtlines'] at hall
  exact List.forall₂_map_right_iff.1 (List.forall₂_map_left_iff.1 hall)

/-- What the equations of a plan require, read off its rules. -/
theorem requirements_of_compile (h : (compile r).result = .ok plan) :
    plan.solution = Solution.ofRequirements ((Solution.outputs r.outputs).map (·, .output)
      ++ (plan.rules.flatMap Rule.footprints).flatMap Prod.fst
      ++ plan.program.negated.map (·, .negated)) := by
  have hfootprints := footprints_of_compile h
  obtain ⟨p, strata, passes, plans, -, -, -, -, rfl⟩ := compile_eq_ok_iff.1 h
  rw [← hfootprints, List.flatMap_map]
  rfl

/-- **The plan does not depend on the order of the rules.** A source whose lines stand in another
order, both in valid UTF-8, compiles with the same outputs iff the source does, whatever the names
of the files and the modes. The plans then have the same extensional, intensional and negated
predicates, arities and dependencies; the same evaluation order; as many strata, and in each the
same rules as they are printed; as many equations and views; and they keep the same predicates for
the same reasons. -/
theorem compile_reordered (hlines : SourceLine.Permutes r.source r'.source)
    (houtputs : r.outputs = r'.outputs) :
    ((∃ plan, (compile r).result = .ok plan) ↔ ∃ plan', (compile r').result = .ok plan')
      ∧ ∀ plan plan', (compile r).result = .ok plan → (compile r').result = .ok plan' →
        plan.Alike plan' := by
  refine ⟨⟨?_, ?_⟩, ?_⟩
  · rintro ⟨plan, h⟩
    exact compile_isOk_of_permutes hlines houtputs h
  · rintro ⟨plan', h'⟩
    exact compile_isOk_of_permutes hlines.symm houtputs.symm h'
  · intro plan plan' h h'
    have hsource := source_of_compile h
    have hsource' := source_of_compile h'
    obtain ⟨p', hp', hrules⟩ := Program.ofSource_of_permutes hlines hsource r'.file r'.mode
    obtain rfl : p' = plan'.program := Except.ok.inj (hp'.symm.trans hsource')
    have halike := Program.alike_of_permutes hsource hsource' hrules
    have hstrata := strata_of_permutes h h' hrules
    have hfootprints : (plan.rules.flatMap Rule.footprints).Perm
        (plan'.rules.flatMap Rule.footprints) :=
      (permutes_flatMap (hstrata.imp fun _ _ hs => hs.2)).flatMap fun _ => rfl
    refine ⟨halike, ?_, ?_, ?_, ?_, ?_⟩
    · rw [order_of_compile h, order_of_compile h']
      refine EvalOrder.ofGraph_congr ⟨?_, ?_, halike.keys, halike.edge⟩ halike.intensional
        halike.negated
      · rw [Program.graph_of_ofSource hsource]
        exact Program.nodup_keys_graphOf _
      · rw [Program.graph_of_ofSource hsource']
        exact Program.nodup_keys_graphOf _
    · exact hstrata.imp fun _ _ hs => ⟨hs.1, hs.2.map fun _ => rfl⟩
    · rw [equationCount_of_compile h, equationCount_of_compile h']
      exact hfootprints.length_eq
    · rw [viewCount_of_compile h, viewCount_of_compile h']
      exact congrArg Finset.card (List.toFinset_eq_of_perm _ _ (hfootprints.filterMap _))
    · rw [requirements_of_compile h, requirements_of_compile h', houtputs]
      refine Solution.sameReasons_of_mem_iff fun q => ?_
      have hkept := (hfootprints.flatMap_right Prod.fst).mem_iff (a := q)
      simp only [List.mem_append, List.mem_map, hkept, halike.negated]

end Reordered

/-- Nodes that no path reaches; rules stand before those they read. -/
def pathsFirst : Request where
  file := "paths.dl"
  source := "lonely(X) :- node(X), not reached(X).\nreached(Y) :- path(_, Y).\n\n"
    ++ "path(X, Z) :- path(X, Y), edge(Y, Z).\npath(X, Y) :- edge(X, Y)."
  outputs := ["lonely"]
  mode := .failFast

/-- The same lines from the base upwards. -/
def pathsLast : Request where
  file := "paths.dl"
  source := "path(X, Y) :- edge(X, Y).\npath(X, Z) :- path(X, Y), edge(Y, Z).\n"
    ++ "reached(Y) :- path(_, Y).\nlonely(X) :- node(X), not reached(X).\n"
  outputs := ["lonely"]
  mode := .accumulate

theorem compile_reordered_paths :
    SourceLine.Permutes pathsFirst.source pathsLast.source
      ∧ ∃ plan plan', (compile pathsFirst).result = .ok plan
        ∧ (compile pathsLast).result = .ok plan' ∧ plan.Alike plan' := by
  have hlines : SourceLine.Permutes pathsFirst.source pathsLast.source := by decide +kernel
  obtain ⟨plan, hplan⟩ := compile_isOk_of_negatesLast (r := pathsFirst) (by decide +kernel)
  obtain ⟨hiff, halike⟩ := compile_reordered (r := pathsFirst) hlines rfl
  obtain ⟨plan', hplan'⟩ := hiff.1 ⟨plan, hplan⟩
  exact ⟨hlines, plan, plan', hplan, hplan', halike plan plan' hplan hplan'⟩

end Plan

end RulePlan
