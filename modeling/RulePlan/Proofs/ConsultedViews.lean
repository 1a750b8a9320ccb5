import RulePlan.Proofs.ClosedEquations
import RulePlan.Proofs.StableSort
import RulePlan.Proofs.ViewNames

/-!
# RulePlan.Proofs.ConsultedViews — the view tables of a stratum agree with its equations

An equation carries the name, the alias and the shape of the view it consults, as they were when it
was compiled. The tables of its stratum are put together afterwards, from these names and from the
registry as it is then. The two agree because the registry only grows, and no call changes what a
name or an alias stands for.

The same holds across strata. A view that was minted for one stratum and is consulted again in a
later one, under other argument names, still has its name, its shape and its first alias.
-/

namespace RulePlan

/-! ## Registries that grow -/

theorem View.eq_of_shape {v : View} {predicate : String} {combination : List Int} {bound : Nat}
    (h : v.shape = (predicate, combination, bound)) :
    v = ⟨v.name, predicate, combination, bound⟩ := by
  cases v
  cases h
  rfl

namespace ViewRegistry

/-- Some sequence of calls leads to the registry. -/
def Reached (r : ViewRegistry) : Prop := ∃ resolved aliased, Session resolved aliased r

theorem reached_empty : empty.Reached := ⟨[], [], .start⟩

/-- A later registry has all views and aliases of an earlier one. -/
structure Extends (r r' : ViewRegistry) : Prop where
  views : ∀ v ∈ r.views, v ∈ r'.views
  aliases : ∀ e ∈ r.aliases, e ∈ r'.aliases

theorem Extends.refl (r : ViewRegistry) : r.Extends r := ⟨fun _ hv => hv, fun _ he => he⟩

theorem Extends.trans {r s t : ViewRegistry} (h : r.Extends s) (h' : s.Extends t) : r.Extends t :=
  ⟨fun v hv => h'.views v (h.views v hv), fun e he => h'.aliases e (h.aliases e he)⟩

theorem extends_resolve (r : ViewRegistry) (predicate : String) (combination : List Int)
    (bound : Nat) : r.Extends (r.resolve predicate combination bound).2.1 := by
  rcases resolve_cases r predicate combination bound with ⟨v, -, -, heq⟩ | ⟨-, heq⟩
  · rw [heq]
    exact .refl r
  · rw [heq]
    exact ⟨fun v hv => List.mem_append_left _ hv, fun _ he => he⟩

theorem extends_assignAlias (r : ViewRegistry) (v : View) (args : List Argument) (rule : Int) :
    r.Extends (r.assignAlias v args rule).2.1 := by
  rcases registry_assignAlias r v args rule with heq | ⟨base, chosen, -, -, heq⟩
  · rw [heq]
    exact .refl r
  · rw [heq]
    exact ⟨fun _ hv => hv, fun e he => List.mem_append_left _ he⟩

/-- What a lookup leaves in the registry: its view, of the shape that was asked for, and its alias,
which is not refused if the combination has all columns. -/
theorem Reached.lookup {r : ViewRegistry} (h : r.Reached) (predicate : String)
    {combination : List Int} (bound : Nat) {args : List Argument}
    (hargs : combination.Perm ((List.range args.length).map Int.ofNat)) (rule : Int) :
    let resolved := r.resolve predicate combination bound
    let named := resolved.2.1.assignAlias resolved.1 args rule
    named.2.1.Reached ∧ r.Extends named.2.1
      ∧ ⟨resolved.1.name, predicate, combination, bound⟩ ∈ named.2.1.views
      ∧ (named.1, resolved.1.name) ∈ named.2.1.aliases := by
  obtain ⟨resolved, aliased, hsession⟩ := h
  have hresolved := hsession.resolve predicate combination bound
  have hnew : ((predicate, combination, bound), (r.resolve predicate combination bound).1)
      ∈ resolved ++ [((predicate, combination, bound),
        (r.resolve predicate combination bound).1)] :=
    List.mem_append_right _ List.mem_cons_self
  have hview : (r.resolve predicate combination bound).1
      = ⟨(r.resolve predicate combination bound).1.name, predicate, combination, bound⟩ :=
    View.eq_of_shape (hresolved.kept.shaped _ hnew)
  have htext : (aliasText? (r.resolve predicate combination bound).1 args).isSome := by
    obtain ⟨arranged, harranged, -⟩ := exists_arranged hargs
    rw [hview, aliasText?, harranged]
    rfl
  have hlast := hresolved.assignAlias (List.mem_map.2 ⟨_, hnew, rfl⟩) args (.inl htext) rule
  have hkept := hlast.kept
  refine ⟨⟨_, _, hlast⟩, ?_, ?_, ?_⟩
  · exact (extends_resolve r predicate combination bound).trans (extends_assignAlias _ _ _ _)
  · rw [← hview]
    exact hkept.mem_views_of_resolved hnew
  · exact (hkept.aliases _ _).2 ⟨_, List.mem_append_right _ List.mem_cons_self, rfl⟩

end ViewRegistry

/-- The view for an atom has all its columns, whichever atom it is looked up from. -/
theorem Atom.combination_perm (b a : Atom) :
    ((Arrangement.ofTerms (b.args.map (Equation.Columns.ofArgs a.args).term)).combination.map
      Int.ofNat).Perm ((List.range b.args.length).map Int.ofNat) := by
  have hperm := Arrangement.combination_perm (b.args.map (Equation.Columns.ofArgs a.args).term)
  rw [List.length_map] at hperm
  exact hperm.map Int.ofNat

/-! ## Equations on record -/

/-- The view that is consulted. -/
def Consultation.entry (c : Consultation) : View :=
  ⟨c.viewName, c.predicate, c.combination.map Int.ofNat, c.bound⟩

/-- A registry has the view that an equation consults, under the alias that the equation uses. -/
def Equation.Listed (registry : ViewRegistry) (e : Equation) : Prop :=
  ∀ c, e.consulting = some c →
    c.entry ∈ registry.views ∧ (c.viewAlias, c.viewName) ∈ registry.aliases

theorem Equation.Listed.mono {r r' : ViewRegistry} {e : Equation} (h : e.Listed r)
    (hextends : r.Extends r') : e.Listed r' := by
  intro c hc
  obtain ⟨hview, halias⟩ := h c hc
  exact ⟨hextends.views _ hview, hextends.aliases _ halias⟩

namespace Compilation

/-- A compilation extends a registry by what its equations consult. -/
structure Lists (registry : ViewRegistry) (c : Compilation) : Prop where
  reached : c.registry.Reached
  grows : registry.Extends c.registry
  listed : ∀ equations, c.result = .ok equations → ∀ e ∈ equations, e.Listed c.registry

theorem Lists.andThen {registry : ViewRegistry} {c : Compilation}
    {next : ViewRegistry → Compilation} (h : c.Lists registry)
    (hnext : (next c.registry).Lists c.registry) : (c.andThen next).Lists registry := by
  cases hresult : c.result with
  | error d =>
    rw [andThen_of_error hresult]
    exact ⟨h.reached, h.grows, nofun⟩
  | ok equations =>
    rw [andThen_of_ok hresult]
    refine ⟨hnext.reached, h.grows.trans hnext.grows, ?_⟩
    intro all hall e he
    obtain ⟨more, hmore, rfl⟩ := map_eq_ok_iff.1 hall
    rcases List.mem_append.1 he with he | he
    · exact (h.listed equations hresult e he).mono hnext.grows
    · exact hnext.listed more hmore e he

section Accepted

variable {p : Program} {registry : ViewRegistry}

theorem binary_lists (hregistry : registry.Reached) {b : Atom}
    (hb : p.arity? b.predicate = some (b.arity : Int)) (r : Rule) (number : Nat)
    (orientation : Orientation) (a : Atom) :
    (binary p registry r number orientation a b).Lists registry := by
  obtain ⟨hafter, hresult⟩ := binary_eq hb registry r number orientation a
  obtain ⟨hreached, hgrows, hview, halias⟩ := hregistry.lookup b.predicate
    (Arrangement.ofTerms (b.args.map (Equation.Columns.ofArgs a.args).term)).bound
    (b.combination_perm a) number
  refine ⟨hafter ▸ hreached, hafter ▸ hgrows, ?_⟩
  intro equations hequations e he c hc
  rw [hafter]
  obtain rfl := Except.ok.inj (hresult.symm.trans hequations)
  obtain rfl := List.mem_singleton.1 he
  obtain rfl := Option.some.inj hc
  exact ⟨hview, halias⟩

theorem ofRule_lists (hp : p.Accepted) {r : Rule} (hr : r ∈ p.rules)
    (hregistry : registry.Reached) (number : Nat) :
    (ofRule p registry r number).Lists registry := by
  rcases positive_cases (hp.safe r hr) with ⟨a, hpos⟩ | ⟨a, b, hpos⟩
  · rw [ofRule_unary hp hr hpos registry number]
    refine ⟨hregistry, .refl registry, ?_⟩
    rintro equations ⟨⟩ e he c hc
    rw [List.mem_singleton.1 he] at hc
    exact nomatch hc
  · obtain ⟨ha, hb⟩ := arity_pair hp hr hpos
    have hfirst := binary_lists hregistry hb r number .firstDrives a
    rw [ofRule_joined hp hr hpos]
    exact hfirst.andThen (binary_lists hfirst.reached ha r number .secondDrives b)

theorem ofRules_lists (hp : p.Accepted) (rules : List (Rule × Nat))
    (hrules : ∀ ri ∈ rules, ri.1 ∈ p.rules) (hregistry : registry.Reached) :
    (ofRules p registry rules).Lists registry := by
  induction rules generalizing registry with
  | nil =>
    refine ⟨hregistry, .refl registry, ?_⟩
    rintro equations ⟨⟩
    exact nofun
  | cons ri rules ih =>
    have hfirst := ofRule_lists hp (hrules ri List.mem_cons_self) hregistry (ri.2 + 1)
    exact hfirst.andThen (ih (fun qj hqj => hrules qj (List.mem_cons_of_mem ri hqj)) hfirst.reached)

end Accepted

end Compilation

/-- A stratum extends the registry by what its equations consult, and takes its tables from it. -/
theorem StratumPlan.ofStratum_lists {p : Program} (hp : p.Accepted) {order : EvalOrder}
    {registry : ViewRegistry} {s : Stratum} {plan : StratumPlan}
    (h : (ofStratum p order registry s).result = .ok plan) (hregistry : registry.Reached) :
    (ofStratum p order registry s).registry.Reached
      ∧ registry.Extends (ofStratum p order registry s).registry
      ∧ plan.views = .ofEquations plan.equations (ofStratum p order registry s).registry
      ∧ ∀ e ∈ plan.equations, e.Listed (ofStratum p order registry s).registry := by
  obtain ⟨hequations, -, -, -, hviews⟩ := parts_of_ofStratum h
  obtain ⟨hreached, hgrows, hlisted⟩ :=
    Compilation.ofRules_lists hp (s.placed p) Stratum.mem_rules_of_placed hregistry
  exact ⟨hreached, hgrows, hviews, hlisted plan.equations hequations⟩

/-- The tables of a stratum are taken from a registry that lists its equations and that a later one
extends. -/
def StratumPlan.Records (final : ViewRegistry) (s : StratumPlan) : Prop :=
  ∃ registry : ViewRegistry, registry.Reached ∧ registry.Extends final
    ∧ s.views = .ofEquations s.equations registry ∧ ∀ e ∈ s.equations, e.Listed registry

theorem Plan.strataStage_records {p : Program} (hp : p.Accepted) {order : EvalOrder}
    {strata : List Stratum} {registry : ViewRegistry} {plans : List StratumPlan}
    (h : (strataStage p order registry strata).result = .ok plans)
    (hregistry : registry.Reached) :
    ∃ final : ViewRegistry, final.Reached ∧ registry.Extends final
      ∧ ∀ s ∈ plans, s.Records final := by
  obtain ⟨final, hrun⟩ := strataStage_eq_ok_iff.1 h
  refine ⟨final, ?_⟩
  clear h
  induction hrun with
  | nil registry => exact ⟨hregistry, .refl registry, nofun⟩
  | @cons registry final s strata plan plans hplan _ ih =>
    obtain ⟨hreached, hgrows, hviews, hlisted⟩ := StratumPlan.ofStratum_lists hp hplan hregistry
    obtain ⟨hfinal, hlater, hrecords⟩ := ih hreached
    refine ⟨hfinal, hgrows.trans hlater, ?_⟩
    intro t ht
    rcases List.mem_cons.1 ht with rfl | ht
    · exact ⟨_, hreached, hlater, hviews, hlisted⟩
    · exact hrecords t ht

/-! ## The tables of a stratum -/

/-- In a table with distinct keys every entry is found. -/
theorem lookup_eq_some_of_nodup {entries : List (String × String)}
    (hnodup : (entries.map Prod.fst).Nodup) {key value : String} (h : (key, value) ∈ entries) :
    entries.lookup key = some value := by
  obtain ⟨front, back, rfl⟩ := List.append_of_mem h
  refine List.lookup_eq_some_iff.2 ⟨front, back, rfl, fun e he => bne_iff_ne.2 ?_⟩
  rw [List.map_append, List.map_cons] at hnodup
  have hnot := (List.nodup_append.1 hnodup).2.2
  exact (hnot e.1 (List.mem_map.2 ⟨e, he, rfl⟩) key List.mem_cons_self).symm

namespace ViewsData

/-- The tables of a stratum agree with its equations. The views are those that the equations
consult, each under its name and of the shape that the equation has; aliases and views correspond
one to one; the views are listed by predicate, and in order of bound columns, most first, then
name. -/
structure Agrees (d : ViewsData) (equations : List Equation) : Prop where
  found : ∀ e ∈ equations, ∀ c, e.consulting = some c →
    d.views.find? (·.name == c.viewName)
      = some ⟨c.viewName, c.predicate, c.combination.map Int.ofNat, c.bound⟩
  aliased : ∀ e ∈ equations, ∀ c, e.consulting = some c →
    d.aliases.lookup c.viewAlias = some c.viewName
  consulted : ∀ v ∈ d.views, ∃ e ∈ equations, ∃ c, e.consulting = some c ∧ c.viewName = v.name
  names : (d.views.map View.name).Nodup
  aliases : (d.aliases.map Prod.fst).Nodup
  owners : (d.aliases.map Prod.snd).Perm (d.views.map View.name)
  predicates : (d.predicateViews.map Prod.fst).Nodup
  predicateViews : ∀ predicate names, (predicate, names) ∈ d.predicateViews ↔
    names = (d.views.filter (·.predicate == predicate)).map View.name ∧ names ≠ []
  order : ∃ ordered : List View, ordered.Perm d.views ∧ d.order = ordered.map View.name
    ∧ ordered.Pairwise fun a b => b.bound < a.bound ∨ a.bound = b.bound ∧ a.name < b.name

section OfEquations

variable {equations : List Equation} {registry : ViewRegistry}

theorem mem_aliases_ofEquations {q : String × String} :
    q ∈ (ofEquations equations registry).aliases ↔
      ∃ e ∈ equations, ∃ c, e.consulting = some c ∧ (c.viewAlias, c.viewName) = q := by
  unfold ofEquations
  rw [List.mem_eraseDups, List.mem_map]
  simp only [List.mem_filterMap]
  constructor
  · rintro ⟨c, ⟨e, he, hc⟩, rfl⟩
    exact ⟨e, he, c, hc, rfl⟩
  · rintro ⟨e, he, c, hc, rfl⟩
    exact ⟨c, ⟨e, he, hc⟩, rfl⟩

theorem mem_views_ofEquations (hregistry : registry.Reached)
    (hlisted : ∀ e ∈ equations, e.Listed registry) {v : View} :
    v ∈ (ofEquations equations registry).views ↔
      ∃ e ∈ equations, ∃ c, e.consulting = some c ∧ c.entry = v := by
  obtain ⟨resolved, aliased, hsession⟩ := hregistry
  have hlookup : ∀ e ∈ equations, ∀ c, e.consulting = some c →
      registry.lookup c.viewName = some c.entry :=
    fun e he c hc => hsession.kept.tidy.lookup_name (hlisted e he c hc).1
  unfold ofEquations
  simp only [List.mem_filterMap, Names.mem_ofList, List.mem_map]
  constructor
  · rintro ⟨name, ⟨c, ⟨e, he, hc⟩, rfl⟩, hv⟩
    rw [hlookup e he c hc] at hv
    exact ⟨e, he, c, hc, Option.some.inj hv⟩
  · rintro ⟨e, he, c, hc, rfl⟩
    exact ⟨_, ⟨c, ⟨e, he, hc⟩, rfl⟩, hlookup e he c hc⟩

theorem map_name_ofEquations (hlisted : ∀ e ∈ equations, e.Listed registry) :
    (ofEquations equations registry).views.map View.name
      = Names.ofList ((Equation.consultations equations).map Consultation.viewName) := by
  refine ViewRegistry.map_name_lookup fun name hname => ?_
  obtain ⟨c, hc, rfl⟩ := List.mem_map.1 (Names.mem_ofList.1 hname)
  obtain ⟨e, he, hconsulting⟩ := List.mem_filterMap.1 hc
  exact ⟨c.entry, (hlisted e he c hconsulting).1, rfl⟩

/-- The aliases of the table are those of the registry, where each stands for one view. -/
theorem aliases_ofEquations_iff (hregistry : registry.Reached)
    (hlisted : ∀ e ∈ equations, e.Listed registry) :
    ∀ q ∈ (ofEquations equations registry).aliases,
      ∀ q' ∈ (ofEquations equations registry).aliases, q.1 = q'.1 ↔ q.2 = q'.2 := by
  obtain ⟨resolved, aliased, hsession⟩ := hregistry
  have hmem : ∀ q ∈ (ofEquations equations registry).aliases, q ∈ registry.aliases := by
    intro q hq
    obtain ⟨e, he, c, hc, rfl⟩ := mem_aliases_ofEquations.1 hq
    exact (hlisted e he c hc).2
  exact fun q hq q' hq' => hsession.kept.single q (hmem q hq) q' (hmem q' hq')

/-- Views are listed by bound columns, then by name. -/
theorem exists_order_ofEquations
    (hnames : ((ofEquations equations registry).views.map View.name).Nodup) :
    ∃ ordered : List View, ordered.Perm (ofEquations equations registry).views
      ∧ (ofEquations equations registry).order = ordered.map View.name
      ∧ ordered.Pairwise fun a b => b.bound < a.bound ∨ a.bound = b.bound ∧ a.name < b.name := by
  have hperm := List.mergeSort_perm (ofEquations equations registry).views
    fun a b => decide (a.name ≤ b.name)
  refine ⟨_, (List.mergeSort_perm _ _).trans hperm, rfl, pairwise_mergeSort_key_down View.bound ?_⟩
  have hsorted : ((ofEquations equations registry).views.mergeSort
      fun a b => decide (a.name ≤ b.name)).map View.name
        = Names.sorted ((ofEquations equations registry).views.map View.name) :=
    List.map_mergeSort fun _ _ _ _ => rfl
  have hle := Names.pairwise_sorted ((ofEquations equations registry).views.map View.name)
  rw [← hsorted] at hle
  have hne := (hperm.map View.name).nodup_iff.2 hnames
  exact List.pairwise_map.1 (hle.imp₂ (fun _ _ => lt_of_le_of_ne) hne)

/-- Only predicates of views are listed, each with its views. -/
theorem mem_predicateViews_ofEquations {predicate : String} {names : List String} :
    (predicate, names) ∈ (ofEquations equations registry).predicateViews ↔
      names = ((ofEquations equations registry).views.filter (·.predicate == predicate)).map
        View.name ∧ names ≠ [] := by
  show (predicate, names) ∈ (Names.ofList ((ofEquations equations registry).views.map
    View.predicate)).map _ ↔ _
  simp only [List.mem_map, Names.mem_ofList, Prod.mk.injEq]
  constructor
  · rintro ⟨_, ⟨v, hv, rfl⟩, rfl, rfl⟩
    refine ⟨rfl, List.ne_nil_of_mem (List.mem_map.2 ⟨v, List.mem_filter.2 ⟨hv, ?_⟩, rfl⟩)⟩
    exact beq_iff_eq.2 rfl
  · rintro ⟨rfl, hne⟩
    obtain ⟨name, hname⟩ := List.exists_mem_of_ne_nil _ hne
    obtain ⟨v, hv, -⟩ := List.mem_map.1 hname
    obtain ⟨hv, hpredicate⟩ := List.mem_filter.1 hv
    exact ⟨predicate, ⟨v, hv, eq_of_beq hpredicate⟩, rfl, rfl⟩

theorem ofEquations_agrees (hregistry : registry.Reached)
    (hlisted : ∀ e ∈ equations, e.Listed registry) :
    (ofEquations equations registry).Agrees equations := by
  have hnames : ((ofEquations equations registry).views.map View.name).Nodup := by
    rw [map_name_ofEquations hlisted]
    exact Names.nodup_ofList _
  have hsingle := aliases_ofEquations_iff hregistry hlisted
  have hentries : (ofEquations equations registry).aliases.Nodup :=
    Layering.nodup_eraseDups _
  have hkeys : ((ofEquations equations registry).aliases.map Prod.fst).Nodup := by
    refine hentries.map_on fun q hq q' hq' hkey => ?_
    exact Prod.ext hkey ((hsingle q hq q' hq').1 hkey)
  refine
    { found := ?_
      aliased := ?_
      consulted := ?_
      names := hnames
      aliases := hkeys
      owners := ?_
      predicates := ?_
      predicateViews := fun _ _ => mem_predicateViews_ofEquations
      order := exists_order_ofEquations hnames }
  · intro e he c hc
    have hv := (mem_views_ofEquations hregistry hlisted).2 ⟨e, he, c, hc, rfl⟩
    have hsome : ((ofEquations equations registry).views.find? (·.name == c.viewName)).isSome :=
      List.find?_isSome.2 ⟨c.entry, hv, beq_iff_eq.2 rfl⟩
    obtain ⟨w, hw⟩ := Option.isSome_iff_exists.1 hsome
    have hname : w.name = c.viewName := by simpa using List.find?_some hw
    rw [hw, List.inj_on_of_nodup_map hnames (List.mem_of_find?_eq_some hw) hv hname]
    rfl
  · intro e he c hc
    exact lookup_eq_some_of_nodup hkeys (mem_aliases_ofEquations.2 ⟨e, he, c, hc, rfl⟩)
  · intro v hv
    obtain ⟨e, he, c, hc, rfl⟩ := (mem_views_ofEquations hregistry hlisted).1 hv
    exact ⟨e, he, c, hc, rfl⟩
  · have howners : ((ofEquations equations registry).aliases.map Prod.snd).Nodup := by
      refine hentries.map_on fun q hq q' hq' howner => ?_
      exact Prod.ext ((hsingle q hq q' hq').2 howner) howner
    refine (List.perm_ext_iff_of_nodup howners hnames).2 fun name => ?_
    simp only [List.mem_map, mem_aliases_ofEquations, mem_views_ofEquations hregistry hlisted]
    constructor
    · rintro ⟨q, ⟨e, he, c, hc, rfl⟩, rfl⟩
      exact ⟨_, ⟨e, he, c, hc, rfl⟩, rfl⟩
    · rintro ⟨v, ⟨e, he, c, hc, rfl⟩, rfl⟩
      exact ⟨_, ⟨e, he, c, hc, rfl⟩, rfl⟩
  · show ((Names.ofList _).map _ |>.map Prod.fst).Nodup
    rw [List.map_map]
    exact (Names.nodup_ofList _).map fun _ _ h => h

end OfEquations

end ViewsData

/-! ## Plans -/

namespace Plan

/-- Two lookups that a registry lists go through one view iff they are of one shape. -/
theorem viewName_eq_iff {registry : ViewRegistry} (hregistry : registry.Reached)
    {c d : Consultation} (hc : c.entry ∈ registry.views) (hd : d.entry ∈ registry.views) :
    c.viewName = d.viewName ↔
      c.predicate = d.predicate ∧ c.combination = d.combination ∧ c.bound = d.bound := by
  obtain ⟨resolved, aliased, hsession⟩ := hregistry
  have htidy := hsession.kept.tidy
  have hinjective : Function.Injective (List.map Int.ofNat) :=
    List.map_injective_iff.2 fun _ _ => Int.ofNat.inj
  constructor
  · intro hname
    have hentry := View.mk.inj (htidy.names _ hc _ hd hname)
    exact ⟨hentry.2.1, hinjective hentry.2.2.1, hentry.2.2.2⟩
  · rintro ⟨hpredicate, hcombination, hbound⟩
    refine (View.mk.inj (htidy.shapes _ hc _ hd ?_)).1
    simp [View.shape, Consultation.entry, hpredicate, hcombination, hbound]

/-- The number of views is that of the predicates, combinations and bounds that equations have. -/
theorem viewCount_eq_card {request : Request} {plan : Plan}
    (h : (compile request).result = .ok plan) :
    plan.viewCount = ((Equation.consultations plan.equations).map fun c =>
      (c.predicate, c.combination, c.bound)).toFinset.card := by
  let shapeOf (t : String × List Nat × Nat) : Shape := (t.1, t.2.1.map Int.ofNat, t.2.2)
  have hinjective : Function.Injective shapeOf := by
    rintro ⟨p, ns, b⟩ ⟨q, ms, c⟩ heq
    obtain ⟨rfl, hmap, rfl⟩ : p = q ∧ ns.map Int.ofNat = ms.map Int.ofNat ∧ b = c := by
      simpa [shapeOf] using heq
    rw [List.map_injective_iff.2 (fun _ _ => Int.ofNat.inj) hmap]
  have hshapes : ((Equation.consultations plan.equations).map Consultation.shape).toFinset
      = ((Equation.consultations plan.equations).map fun c =>
        (c.predicate, c.combination, c.bound)).toFinset.image shapeOf := by
    ext shape
    simp [Consultation.shape, shapeOf]
  rw [viewCount_of_compile h, ← footprints_of_compile h, ← Equation.map_shape_consultations,
    hshapes, Finset.card_image_of_injective _ hinjective]

/-- The view tables of a plan are consistent: those of each stratum agree with its equations, and
over all strata a name stands for one shape and a shape has one name, which views are counted by. -/
structure Consistent (plan : Plan) : Prop where
  strata : ∀ s ∈ plan.strata, s.views.Agrees s.equations
  names : ∀ e ∈ plan.equations, ∀ f ∈ plan.equations, ∀ c d, e.consulting = some c →
    f.consulting = some d → (c.viewName = d.viewName ↔
      c.predicate = d.predicate ∧ c.combination = d.combination ∧ c.bound = d.bound)
  viewCount : plan.viewCount = ((Equation.consultations plan.equations).map fun c =>
    (c.predicate, c.combination, c.bound)).toFinset.card

/-- **Views are consistent throughout a plan.** In each stratum the view of every lookup is found
under the name and the alias that the equation carries, with its predicate, combination and bound;
no other view is listed; aliases and views correspond one to one; the names are split by predicate,
and ordered by bound, then name. Across strata two lookups have the same view name iff they agree on
predicate, combination and bound, and the plan counts as many views as there are such triples. -/
theorem consistent_of_compile {request : Request} {plan : Plan}
    (h : (compile request).result = .ok plan) : plan.Consistent := by
  have hcount := viewCount_eq_card h
  obtain ⟨p, strata, passes, plans, hsource, -, hplans, -, rfl⟩ := compile_eq_ok_iff.1 h
  obtain ⟨final, hfinal, -, hrecords⟩ := strataStage_records
    (Program.accepted_of_ofSource hsource) hplans ViewRegistry.reached_empty
  have hlisted : ∀ e ∈ plans.flatMap StratumPlan.equations, e.Listed final := by
    intro e he
    obtain ⟨s, hs, hes⟩ := List.mem_flatMap.1 he
    obtain ⟨registry, -, hextends, -, hown⟩ := hrecords s hs
    exact (hown e hes).mono hextends
  refine ⟨?_, ?_, hcount⟩
  · intro s hs
    obtain ⟨registry, hregistry, -, hviews, hown⟩ := hrecords s hs
    rw [hviews]
    exact ViewsData.ofEquations_agrees hregistry hown
  · intro e he f hf c d hc hd
    exact viewName_eq_iff hfinal (hlisted e he c hc).1 (hlisted f hf d hd).1

/-- Two rules that consult one view under different argument names. -/
def sharedRequest : Request :=
  ⟨"shared.dl", "near(Y) :- near(X), edge(X, Y).\nfar(V) :- node(U), edge(U, V).", [], .failFast⟩

theorem consistent_of_compile_shared :
    ∃ plan, (compile sharedRequest).result = .ok plan ∧ plan.Consistent := by
  obtain ⟨plan, hplan⟩ := compile_isOk_of_negatesLast (r := sharedRequest) (by decide +kernel)
  exact ⟨plan, hplan, consistent_of_compile hplan⟩

end Plan

end RulePlan
