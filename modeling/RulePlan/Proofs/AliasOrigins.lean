import RulePlan.Proofs.ConsultedViews

/-!
# RulePlan.Proofs.AliasOrigins — which atom an alias spells

A compilation asks the registry for views and aliases on behalf of the rules that join two atoms,
for one lookup at a time. A view keeps the alias that it got with its first lookup, so the alias in
an equation may spell the arguments of another atom, in another rule. Whatever the order of the
calls, every alias spells some positive atom that is looked up through its view: the predicate of
the atom and all its arguments, in view order, with a number if the plain text was taken.
-/

namespace RulePlan

/-! ## Lookups of a program -/

/-- The rule with a number joins two atoms, given in either order. -/
def Program.Joins (p : Program) (number : Nat) (a b : Atom) : Prop :=
  ∃ i r, p.rules[i]? = some r ∧ number = i + 1 ∧ (r.positive = [a, b] ∨ r.positive = [b, a])

/-- The columns of an atom as they are looked up from the tuples of another. -/
def Atom.arrangedFrom (b a : Atom) : Arrangement :=
  Arrangement.ofTerms (b.args.map (Equation.Columns.ofArgs a.args).term)

namespace ViewRegistry

/-- The view for looking up one atom from the tuples of another, and the registry that has it. -/
def viewFor (r : ViewRegistry) (a b : Atom) : View × ViewRegistry :=
  let resolved :=
    r.resolve b.predicate ((b.arrangedFrom a).combination.map Int.ofNat) (b.arrangedFrom a).bound
  (resolved.1, resolved.2.1)

/-- The alias of that view as it is asked for from a rule, and the registry that has both. -/
def aliasFor (r : ViewRegistry) (a b : Atom) (number : Nat) : String × ViewRegistry :=
  let named := (r.viewFor a b).2.assignAlias (r.viewFor a b).1 b.args number
  (named.1, named.2.1)

/-- The registries that lookups of a program lead to, each of which first asks for its view and then
for the alias. -/
inductive OnTheWay (p : Program) : ViewRegistry → Prop
  | start : OnTheWay p .empty
  | resolve {r : ViewRegistry} {number : Nat} {a b : Atom} (before : OnTheWay p r)
      (h : p.Joins number a b) : OnTheWay p (r.viewFor a b).2
  | assignAlias {r : ViewRegistry} {number : Nat} {a b : Atom} (before : OnTheWay p r)
      (h : p.Joins number a b) : OnTheWay p (r.aliasFor a b number).2

end ViewRegistry

/-! ## What aliases spell -/

/-- An atom of the rule with a number is looked up through a view, which has the columns of the atom
in some order. -/
structure Program.LooksUp (p : Program) (number : Nat) (b : Atom) (v : View) : Prop where
  positive : ∃ i r, p.rules[i]? = some r ∧ number = i + 1 ∧ b ∈ r.positive
  predicate : v.predicate = b.predicate
  columns : v.combination.Perm ((List.range b.args.length).map Int.ofNat)

/-- A view takes all arguments of an atom that is looked up through it. -/
theorem Program.LooksUp.exists_text {p : Program} {number : Nat} {b : Atom} {v : View}
    (h : p.LooksUp number b v) :
    ∃ arranged : List Argument, arranged.Perm b.args
      ∧ ViewRegistry.aliasText? v b.args = some (ViewRegistry.aliasText b.predicate arranged) := by
  obtain ⟨arranged, harranged, hperm⟩ := ViewRegistry.exists_arranged h.columns
  refine ⟨arranged, hperm, ?_⟩
  rw [ViewRegistry.aliasText?, harranged, h.predicate]
  rfl

/-- An alias spells an atom that is looked up through the view, from the rule with a number. The
plain spelling is the first one, the others are numbered. -/
structure Program.Spells (p : Program) (v : View) (number : Nat) (b : Atom) (n : Nat)
    (name : String) : Prop where
  lookup : p.LooksUp number b v
  name_eq : ∃ text, ViewRegistry.aliasText? v b.args = some text
    ∧ name = ViewRegistry.spelling text number n

namespace ViewRegistry

/-- The characters of an alias: the predicate, and each argument behind an underscore. -/
theorem toList_aliasText (predicate : String) (arranged : List Argument) :
    (aliasText predicate arranged).toList
      = predicate.toList ++ arranged.flatMap fun a => '_' :: (aliasPart a).toList := by
  induction arranged generalizing predicate with
  | nil => simp [aliasText]
  | cons a more ih =>
    unfold aliasText at ih ⊢
    rw [List.map_cons, String.intercalate_cons_cons, String.toList_append, ih,
      String.toList_append, List.flatMap_cons, List.append_assoc]
    rfl

/-- The registry has been used as registries are, and each of its aliases spells an atom that is
looked up through its view. -/
structure Sourced (p : Program) (r : ViewRegistry) : Prop where
  reached : r.Reached
  aliases : ∀ e ∈ r.aliases, ∃ v ∈ r.views, v.name = e.2 ∧ ∃ number b n, p.Spells v number b n e.1

section Calls

variable {p : Program} {r : ViewRegistry} {number : Nat} {a b : Atom}

theorem Reached.tidy (h : r.Reached) : r.Tidy := by
  obtain ⟨resolved, aliased, hsession⟩ := h
  exact hsession.kept.tidy

theorem Reached.viewFor (h : r.Reached) (a b : Atom) : (r.viewFor a b).2.Reached := by
  obtain ⟨resolved, aliased, hsession⟩ := h
  exact ⟨_, _, hsession.resolve _ _ _⟩

theorem Reached.aliasFor (h : r.Reached) (a b : Atom) (number : Nat) :
    (r.aliasFor a b number).2.Reached :=
  (h.lookup _ _ (b.combination_perm a) number).1

theorem aliases_resolve (r : ViewRegistry) (predicate : String) (combination : List Int)
    (bound : Nat) : (r.resolve predicate combination bound).2.1.aliases = r.aliases := by
  rcases resolve_cases r predicate combination bound with ⟨v, -, -, heq⟩ | ⟨-, heq⟩ <;> rw [heq]

/-- The view of a lookup is that of the atom, whichever atom it was made for. -/
theorem looksUp_viewFor (h : r.Reached) (hjoins : p.Joins number a b) :
    p.LooksUp number b (r.viewFor a b).1 := by
  obtain ⟨i, rule, hi, hnumber, hpos⟩ := hjoins
  have hshape := (h.tidy.resolve b.predicate ((b.arrangedFrom a).combination.map Int.ofNat)
    (b.arrangedFrom a).bound).2.2.2
  have hview := View.eq_of_shape hshape
  refine ⟨⟨i, rule, hi, hnumber, ?_⟩, congrArg View.predicate hview, ?_⟩
  · rcases hpos with hpos | hpos <;> simp [hpos]
  · rw [show (r.viewFor a b).1.combination = (b.arrangedFrom a).combination.map Int.ofNat from
      congrArg View.combination hview]
    exact b.combination_perm a

theorem Sourced.viewFor (h : r.Sourced p) (a b : Atom) : (r.viewFor a b).2.Sourced p where
  reached := h.reached.viewFor a b
  aliases := by
    intro e he
    rw [show (r.viewFor a b).2.aliases = r.aliases from aliases_resolve _ _ _ _] at he
    obtain ⟨v, hv, hspells⟩ := h.aliases e he
    exact ⟨v, (extends_resolve r _ _ _).views v hv, hspells⟩

theorem Sourced.aliasFor (h : r.Sourced p) (hjoins : p.Joins number a b) :
    (r.aliasFor a b number).2.Sourced p where
  reached := h.reached.aliasFor a b number
  aliases := by
    have hview := h.viewFor a b
    have hmem := (h.reached.tidy.resolve b.predicate
      ((b.arrangedFrom a).combination.map Int.ofNat) (b.arrangedFrom a).bound).2.2.1
    dsimp only [ViewRegistry.aliasFor]
    rcases registry_assignAlias (r.viewFor a b).2 (r.viewFor a b).1 b.args number with
      heq | ⟨base, chosen, hbase, ⟨n, hchosen, -, -⟩, heq⟩
    · rw [heq]
      exact hview.aliases
    · rw [heq]
      refine List.forall_mem_append.2 ⟨hview.aliases, List.forall_mem_singleton.2 ?_⟩
      exact ⟨_, hmem, rfl, number, b, n, looksUp_viewFor h.reached hjoins, base, hbase, hchosen⟩

/-- Every call keeps aliases and atoms together. -/
theorem OnTheWay.sourced (h : r.OnTheWay p) : r.Sourced p := by
  induction h with
  | start => exact ⟨reached_empty, nofun⟩
  | resolve _ _ ih => exact ih.viewFor _ _
  | assignAlias _ hjoins ih => exact ih.aliasFor hjoins

end Calls

end ViewRegistry

/-! ## Compilation -/

section Compilation

variable {p : Program} {registry : ViewRegistry}

theorem Compilation.ofRule_onTheWay (hp : p.Accepted) {r : Rule} {i : Nat}
    (hi : p.rules[i]? = some r) (hregistry : registry.OnTheWay p) :
    (ofRule p registry r (i + 1)).Upholds (ViewRegistry.OnTheWay p) fun _ => True := by
  have hr := List.mem_of_getElem? hi
  refine ofRule_upholds hp hr (fun _ _ => trivial) ?_ hregistry
  intro registry hregistry orientation a b hpos
  have hb : b ∈ r.positive := by rcases hpos with hpos | hpos <;> simp [hpos]
  have harity := hp.arity r hr b (positive_subset_atoms hb)
  refine ⟨?_, fun _ _ _ _ => trivial⟩
  rw [(binary_eq harity registry r (i + 1) orientation a).1]
  exact hregistry.assignAlias ⟨i, r, hi, rfl, hpos⟩

/-- Strata leave a registry on the way that lists all their equations. -/
theorem Plan.strataStage_onTheWay (hp : p.Accepted) {order : EvalOrder} {strata : List Stratum}
    {plans : List StratumPlan} (h : (strataStage p order registry strata).result = .ok plans)
    (hregistry : registry.OnTheWay p) :
    ∃ final : ViewRegistry, final.OnTheWay p ∧ registry.Extends final
      ∧ ∀ s ∈ plans, ∀ e ∈ s.equations, e.Listed final := by
  obtain ⟨final, hrun⟩ := strataStage_eq_ok_iff.1 h
  refine ⟨final, ?_⟩
  clear h
  induction hrun with
  | nil registry => exact ⟨hregistry, .refl registry, nofun⟩
  | @cons registry final s strata plan plans hplan _ ih =>
    obtain ⟨-, hgrows, -, hfirst⟩ :=
      StratumPlan.ofStratum_lists hp hplan hregistry.sourced.reached
    have honTheWay := (Compilation.ofRules_upholds
      (fun _ hQ _ _ hi => Compilation.ofRule_onTheWay hp hi hQ) (s.placed p)
      Stratum.getElem?_of_placed registry hregistry).1
    obtain ⟨hfinal, hlater, hlisted⟩ := ih honTheWay
    refine ⟨hfinal, hgrows.trans hlater, List.forall_mem_cons.2 ⟨?_, hlisted⟩⟩
    exact fun e he => (hfirst e he).mono hlater

/-- A compilation ends on the way, and its registry then lists all equations of the plan. -/
theorem Plan.exists_onTheWay {request : Request} {plan : Plan}
    (h : (compile request).result = .ok plan) :
    ∃ final : ViewRegistry, final.OnTheWay plan.program ∧ ∀ e ∈ plan.equations, e.Listed final := by
  obtain ⟨p, strata, passes, plans, hsource, -, hplans, -, rfl⟩ := compile_eq_ok_iff.1 h
  obtain ⟨final, hfinal, -, hlisted⟩ :=
    strataStage_onTheWay (Program.accepted_of_ofSource hsource) hplans .start
  refine ⟨final, hfinal, fun e he => ?_⟩
  obtain ⟨s, hs, hes⟩ := List.mem_flatMap.1 he
  exact hlisted s hs e hes

/-- The aliases of a stratum are those of its equations. -/
theorem Plan.exists_equation_of_mem_aliases {request : Request} {plan : Plan}
    (h : (compile request).result = .ok plan) {s : StratumPlan} (hs : s ∈ plan.strata)
    {q : String × String} (hq : q ∈ s.views.aliases) :
    ∃ e ∈ plan.equations, ∃ c, e.consulting = some c ∧ (c.viewAlias, c.viewName) = q := by
  have hupholds := strata_uphold (Q := fun _ => True) (P := fun _ => True) h trivial
    (fun _ _ _ _ _ => ⟨trivial, fun _ _ _ _ => trivial⟩) s hs
  obtain ⟨registry, -, hviews⟩ := hupholds.views
  rw [hviews] at hq
  obtain ⟨e, he, hc⟩ := ViewsData.mem_aliases_ofEquations.1 hq
  exact ⟨e, List.mem_flatMap.2 ⟨s, hs, he⟩, hc⟩

end Compilation

end RulePlan
