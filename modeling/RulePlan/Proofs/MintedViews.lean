import RulePlan.Proofs.AliasOrigins

/-!
# RulePlan.Proofs.MintedViews — one event for every view of a plan

A plan does not keep the registry of its views. It counts the names that its equations use, stratum
by stratum, and an event is sent where the registry gives a name. The two counts agree: a name is
given only in the lookup of an equation, so no view is named in vain, and a view that a later
stratum consults again is not named again.
-/

namespace RulePlan

/-- The events of a name, in order. -/
def Event.named (name : String) (events : List Event) : List Event := events.filter (·.name == name)

namespace Event

theorem named_append (name : String) (events more : List Event) :
    named name (events ++ more) = named name events ++ named name more :=
  List.filter_append ..

theorem named_cons_of_eq {name : String} {e : Event} (h : e.name = name) (events : List Event) :
    named name (e :: events) = e :: named name events :=
  List.filter_cons_of_pos (beq_iff_eq.2 h)

theorem named_cons_of_ne {name : String} {e : Event} (h : e.name ≠ name) (events : List Event) :
    named name (e :: events) = named name events :=
  List.filter_cons_of_neg (by simpa using h)

end Event

/-- The view that a notice announces. -/
def ViewNotice.view? : ViewNotice → Option View
  | .minted v => some v
  | .renamed .. => none

/-- The views that notices announce. -/
def ViewNotice.announced (notices : List ViewNotice) : List View := notices.filterMap view?

theorem ViewNotice.announced_append (notices more : List ViewNotice) :
    announced (notices ++ more) = announced notices ++ announced more := List.filterMap_append ..

open ViewNotice (announced announced_append)

theorem Event.length_named_viewMinted (notices : List ViewNotice) :
    (named viewMinted (notices.map ofNotice)).length = (announced notices).length := by
  induction notices with
  | nil => rfl
  | cons notice notices ih =>
    cases notice with
    | minted v =>
      rw [List.map_cons, named_cons_of_eq (show (ofNotice (.minted v)).name = viewMinted from rfl),
        List.length_cons, ih]
      rfl
    | renamed plain chosen view =>
      rw [List.map_cons, named_cons_of_ne (show aliasRenamed ≠ viewMinted by decide), ih]
      rfl

/-! ## The registry -/

namespace ViewRegistry

theorem views_resolve (r : ViewRegistry) (predicate : String) (combination : List Int)
    (bound : Nat) :
    let resolved := r.resolve predicate combination bound
    resolved.2.1.views = r.views ++ announced resolved.2.2
      ∧ ∀ v ∈ announced resolved.2.2, v = ⟨resolved.1.name, predicate, combination, bound⟩ := by
  dsimp only
  rcases resolve_cases r predicate combination bound with ⟨v, -, -, heq⟩ | ⟨-, heq⟩
  · rw [heq]
    exact ⟨(List.append_nil _).symm, nofun⟩
  · rw [heq]
    refine ⟨rfl, ?_⟩
    rintro v hv
    exact List.mem_singleton.1 hv

/-- Giving an alias announces no view. -/
theorem announced_assignAlias (r : ViewRegistry) (v : View) (args : List Argument) (rule : Int) :
    announced (r.assignAlias v args rule).2.2 = [] := by
  unfold assignAlias
  split
  case h_1 => rfl
  case h_2 =>
    split
    case h_1 => rfl
    case h_2 =>
      dsimp only
      split <;> rfl

end ViewRegistry

/-! ## Rules -/

namespace Compilation

/-- The notices of a compilation announce the views that it adds to a registry, and if it succeeds
its equations consult them all. -/
structure Announces (registry : ViewRegistry) (c : Compilation) : Prop where
  views : c.registry.views = registry.views ++ announced c.notices
  consulted : ∀ equations, c.result = .ok equations →
    ∀ v ∈ announced c.notices, ∃ e ∈ equations, ∃ k, e.consulting = some k ∧ k.entry = v

/-- Nothing is announced where no view is looked up. -/
theorem announces_of_notices_eq_nil (registry : ViewRegistry)
    (result : Except Diagnostic (List Equation)) : Announces registry ⟨registry, [], result⟩ :=
  ⟨(List.append_nil _).symm, nofun⟩

theorem Announces.andThen {registry : ViewRegistry} {c : Compilation}
    {next : ViewRegistry → Compilation} (h : c.Announces registry)
    (hnext : (next c.registry).Announces c.registry) : (c.andThen next).Announces registry := by
  cases hresult : c.result with
  | error d =>
    rw [andThen_of_error hresult]
    exact ⟨h.views, nofun⟩
  | ok equations =>
    rw [andThen_of_ok hresult]
    constructor
    · show (next c.registry).registry.views = _
      rw [hnext.views, h.views, announced_append, List.append_assoc]
    · intro all hall v hv
      obtain ⟨more, hmore, rfl⟩ := map_eq_ok_iff.1 hall
      rw [announced_append] at hv
      rcases List.mem_append.1 hv with hv | hv
      · obtain ⟨e, he, hconsults⟩ := h.consulted equations hresult v hv
        exact ⟨e, List.mem_append_left more he, hconsults⟩
      · obtain ⟨e, he, hconsults⟩ := hnext.consulted more hmore v hv
        exact ⟨e, List.mem_append_right equations he, hconsults⟩

theorem binary_announces (p : Program) (registry : ViewRegistry) (r : Rule) (number : Nat)
    (orientation : Orientation) (driving consulting : Atom) :
    (binary p registry r number orientation driving consulting).Announces registry := by
  unfold binary
  dsimp only
  split
  case isTrue => exact announces_of_notices_eq_nil registry _
  case isFalse =>
    obtain ⟨hviews, hshape⟩ := registry.views_resolve consulting.predicate
      ((Arrangement.ofTerms (consulting.args.map
        (Equation.Columns.ofArgs driving.args).term)).combination.map Int.ofNat)
      (Arrangement.ofTerms (consulting.args.map (Equation.Columns.ofArgs driving.args).term)).bound
    constructor
    · show (ViewRegistry.assignAlias _ _ _ _).2.1.views = registry.views ++ announced (_ ++ _)
      rw [ViewRegistry.views_assignAlias, announced_append, ViewRegistry.announced_assignAlias,
        List.append_nil]
      exact hviews
    · rintro equations ⟨⟩ v hv
      rw [announced_append, ViewRegistry.announced_assignAlias, List.append_nil] at hv
      exact ⟨_, List.mem_singleton.2 rfl, _, rfl, (hshape v hv).symm⟩

theorem ofRule_announces (p : Program) (registry : ViewRegistry) (r : Rule) (number : Nat) :
    (ofRule p registry r number).Announces registry := by
  unfold ofRule
  split
  case h_1 => exact announces_of_notices_eq_nil registry _
  case h_2 =>
    split
    case h_1 => exact announces_of_notices_eq_nil registry _
    case h_2 a b hpos =>
      exact (binary_announces p registry r number .firstDrives a b).andThen
        (binary_announces p _ r number .secondDrives b a)
    case h_3 => exact announces_of_notices_eq_nil registry _

theorem ofRules_announces (p : Program) (rules : List (Rule × Nat)) (registry : ViewRegistry) :
    (ofRules p registry rules).Announces registry := by
  induction rules generalizing registry with
  | nil => exact announces_of_notices_eq_nil registry _
  | cons ri rules ih => exact (ofRule_announces p registry ri.1 (ri.2 + 1)).andThen (ih _)

end Compilation

/-! ## Strata -/

namespace Traced

variable {α β : Type}

/-- The events of two stages in sequence, if the first succeeds. -/
theorem events_andThen_of_ok {t : Traced α} {a : α} (h : t.result = .ok a)
    (next : α → Traced β) : (t.andThen next).events = t.events ++ (next a).events := by
  unfold andThen
  rw [h]

/-- A failure leaves the events as they are. -/
theorem events_andThen_of_error {t : Traced α} {ds : List Diagnostic} (h : t.result = .error ds)
    (next : α → Traced β) : (t.andThen next).events = t.events := by
  unfold andThen
  rw [h]

/-- A last step without events adds none. -/
theorem events_andThen_silent (t : Traced α) (result : α → Except (List Diagnostic) β) :
    (t.andThen fun a => ⟨[], result a⟩).events = t.events := by
  cases h : t.result with
  | error ds => exact events_andThen_of_error h _
  | ok a => rw [events_andThen_of_ok h, List.append_nil]

end Traced

namespace Plan

/-- The events of a stratum that compiles stand before those of the strata after it. -/
theorem events_strataStage_cons {p : Program} {order : EvalOrder} {registry : ViewRegistry}
    {s : Stratum} {plan : StratumPlan}
    (h : (StratumPlan.ofStratum p order registry s).result = .ok plan) (strata : List Stratum) :
    (strataStage p order registry (s :: strata)).events
      = (StratumPlan.ofStratum p order registry s).notices.map .ofNotice ++ .ofStratumPlan plan ::
        (strataStage p order (StratumPlan.ofStratum p order registry s).registry strata).events := by
  conv_lhs => unfold strataStage Traced.after
  dsimp only
  rw [h]
  dsimp only
  rw [Traced.events_andThen_of_ok rfl, Traced.events_andThen_silent]
  rfl

/-- A stratum adds to the registry the views that it lists. -/
theorem mem_views_of_ofStratum {p : Program} (hp : p.Accepted) {order : EvalOrder}
    {registry : ViewRegistry} {s : Stratum} {plan : StratumPlan}
    (h : (StratumPlan.ofStratum p order registry s).result = .ok plan)
    (hregistry : registry.Reached) (v : View) :
    v ∈ (StratumPlan.ofStratum p order registry s).registry.views ↔
      v ∈ registry.views ∨ v ∈ plan.views.views := by
  obtain ⟨hequations, -⟩ := StratumPlan.parts_of_ofStratum h
  obtain ⟨hreached, -, hviews, hlisted⟩ := StratumPlan.ofStratum_lists hp h hregistry
  have hannounces := Compilation.ofRules_announces p (s.placed p) registry
  have hsplit : v ∈ (StratumPlan.ofStratum p order registry s).registry.views ↔
      v ∈ registry.views ∨ v ∈ announced (StratumPlan.ofStratum p order registry s).notices := by
    rw [← List.mem_append]
    exact iff_of_eq (congrArg (v ∈ ·) hannounces.views)
  -- what the stratum lists is what its equations consult
  rw [hsplit, hviews, ViewsData.mem_views_ofEquations hreached hlisted]
  constructor
  · rintro (hv | hv)
    · exact .inl hv
    · exact .inr (hannounces.consulted plan.equations hequations v hv)
  · rintro (hv | ⟨e, he, c, hc, rfl⟩)
    · exact .inl hv
    · exact hsplit.1 (hlisted e he c hc).1

/-- Strata announce the views that they add to a registry, and it then has those that the strata
list and no others. -/
theorem strataStage_announces {p : Program} (hp : p.Accepted) {order : EvalOrder}
    {strata : List Stratum} {registry : ViewRegistry} {plans : List StratumPlan}
    (h : (strataStage p order registry strata).result = .ok plans)
    (hregistry : registry.Reached) :
    ∃ final : ViewRegistry, final.Reached
      ∧ final.views.length = registry.views.length
        + (Event.named Event.viewMinted (strataStage p order registry strata).events).length
      ∧ ∀ v, v ∈ final.views ↔ v ∈ registry.views ∨ ∃ s ∈ plans, v ∈ s.views.views := by
  obtain ⟨final, hrun⟩ := strataStage_eq_ok_iff.1 h
  refine ⟨final, ?_⟩
  clear h
  induction hrun with
  | nil registry =>
    refine ⟨hregistry, rfl, fun v => ⟨Or.inl, ?_⟩⟩
    rintro (hv | ⟨s, hs, -⟩)
    · exact hv
    · exact absurd hs List.not_mem_nil
  | @cons registry final s strata plan plans hplan _ ih =>
    obtain ⟨hreached, -⟩ := StratumPlan.ofStratum_lists hp hplan hregistry
    obtain ⟨hfinal, hlength, hmem⟩ := ih hreached
    refine ⟨hfinal, ?_, fun v => ?_⟩
    · have hnew := congrArg List.length
        (Compilation.ofRules_announces p (s.placed p) registry).views
      rw [List.length_append] at hnew
      rw [hlength, events_strataStage_cons hplan, Event.named_append, List.length_append,
        Event.length_named_viewMinted,
        Event.named_cons_of_ne (show Event.stratumCompiled ≠ _ by decide), ← Nat.add_assoc]
      exact congrArg (· + _) hnew
    · rw [hmem, mem_views_of_ofStratum hp hplan hregistry, or_assoc, List.exists_mem_cons_iff]

/-- A plan counts as many views as were announced on the way. -/
theorem viewCount_eq_length {p : Program} (hp : p.Accepted) {order : EvalOrder}
    {strata : List Stratum} {plans : List StratumPlan}
    (h : (strataStage p order .empty strata).result = .ok plans) :
    (Names.ofList (plans.flatMap fun s => s.views.views.map View.name)).length
      = (Event.named Event.viewMinted (strataStage p order .empty strata).events).length := by
  obtain ⟨final, hfinal, hlength, hmem⟩ :=
    strataStage_announces hp h ViewRegistry.reached_empty
  obtain ⟨resolved, aliased, hsession⟩ := hfinal
  have hviews : final.views.Nodup := by
    rw [hsession.kept.minted]
    exact Layering.nodup_eraseDups _
  have hnames : (final.views.map View.name).Nodup :=
    hviews.map_on fun v hv w hw => hsession.kept.tidy.names v hv w hw
  have hperm : (Names.ofList (plans.flatMap fun s => s.views.views.map View.name)).Perm
      (final.views.map View.name) := by
    refine (List.perm_ext_iff_of_nodup (Names.nodup_ofList _) hnames).2 fun name => ?_
    simp only [Names.mem_ofList, List.mem_flatMap, List.mem_map, hmem]
    constructor
    · rintro ⟨s, hs, v, hv, rfl⟩
      exact ⟨v, .inr ⟨s, hs, hv⟩, rfl⟩
    · rintro ⟨v, hv | ⟨s, hs, hv⟩, rfl⟩
      · exact absurd hv List.not_mem_nil
      · exact ⟨s, hs, v, hv, rfl⟩
  rw [hperm.length_eq, List.length_map, hlength]
  exact Nat.zero_add _

end Plan

end RulePlan
