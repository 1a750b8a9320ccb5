import RulePlan.Proofs.FailureClasses
import RulePlan.Proofs.OrderInvariance
import RulePlan.Proofs.RenderedTerms

/-!
# RulePlan.Proofs.ViewShapes — what compilation leaves behind of a rule

A view is numbered when its shape first comes up, so its name depends on the rules compiled before.
Its shape does not: it is read off the two atoms of a rule, as are the predicates that the rule
requires to be kept. `Rule.footprints` collects both, one entry for each equation. The registry
keeps names and shapes in step: it finds shapes by keys from which they can be read back, a number
is given once for each predicate, and a name can be taken apart again. So a plan has as many views
as its rules have shapes.
-/

namespace RulePlan

/-! ## Shapes and footprints -/

/-- A consulted predicate, its columns in view order, and how many of them are fixed. -/
abbrev Shape := String × List Int × Nat

/-- The shape of a view. -/
def View.shape (v : View) : Shape := (v.predicate, v.combination, v.bound)

/-- The shape of the view that is consulted. -/
def Consultation.shape (c : Consultation) : Shape :=
  (c.predicate, c.combination.map Int.ofNat, c.bound)

/-- What an equation leaves behind: the predicates it requires to be kept, and the shape it
consults. -/
abbrev Footprint := List (String × Reason) × Option Shape

/-- The footprint of an equation. -/
def Equation.footprint (e : Equation) : Footprint :=
  (Solution.ofEquation e, e.consulting.map Consultation.shape)

/-- The footprint of driving by one atom and consulting another. -/
def Atom.footprint (driving consulting : Atom) : Footprint :=
  let arrangement :=
    Arrangement.ofTerms (consulting.args.map (Equation.Columns.ofArgs driving.args).term)
  ((if driving.repeatsVariable then [(driving.predicate, .equalCard)] else [])
      ++ (if arrangement.bound == arrangement.terms.length then
        [(consulting.predicate, .membership)] else []),
    some (consulting.predicate, arrangement.combination.map Int.ofNat, arrangement.bound))

/-- The footprints of the equations of a rule. -/
def Rule.footprints (r : Rule) : List Footprint :=
  match r.positive with
  | [_] => [([], none)]
  | [a, b] => [a.footprint b, b.footprint a]
  | _ => []

theorem Equation.footprint_binary {c : Consultation} {a b : Atom} (hc : c.Consults a b) (r : Rule)
    (number : Nat) : (Equation.ofRule r number a (some c)).footprint = a.footprint b := by
  obtain ⟨hpredicate, harrangement⟩ := hc
  unfold Equation.footprint Atom.footprint
  dsimp only
  rw [← harrangement, ← hpredicate]
  rfl

/-! ## Names of views -/

/-- The name of the n-th view of a predicate. -/
def View.nameOf (predicate : String) (n : Nat) : String :=
  predicate ++ "_view_" ++ Text.Decimal.ofNat n

/-- A name can be taken apart: its last digits are the number, and what stands before the fixed
middle is the predicate. -/
theorem View.nameOf_injective {x y : String} {m n : Nat} (h : nameOf x m = nameOf y n) :
    x = y ∧ m = n := by
  have hdigits : ∀ (z : String) (k : Nat),
      ((nameOf z k).toList.reverse).takeWhile Token.isDigit = (Text.Decimal.digits k).reverse := by
    intro z k
    have hsplit : (nameOf z k).toList.reverse
        = (Text.Decimal.digits k).reverse ++ "_weiv_".toList ++ z.toList.reverse := by
      unfold nameOf
      rw [String.toList_append, String.toList_append, List.reverse_append, List.reverse_append,
        Grammar.toList_ofNat, List.append_assoc]
      rfl
    rw [hsplit, List.append_assoc]
    refine (Token.takeWhile_append_of_head ?_ ?_).1
    · intro c hc
      exact Grammar.isDigit_of_mem_digits c (List.mem_reverse.1 hc)
    · intro c hc
      obtain rfl : '_' = c := by simpa using hc
      rfl
  have hnumber : m = n := by
    have hreverse := hdigits y n
    rw [← h, hdigits x m] at hreverse
    exact Text.Decimal.eq_of_digits (List.reverse_injective hreverse)
  subst hnumber
  unfold nameOf at h
  rw [String.append_assoc, String.append_assoc] at h
  exact ⟨String.append_left_inj _ |>.1 h, rfl⟩

/-! ## Keys of shapes -/

namespace ShapeKey

/-- Numbers are told apart again at the commas: none of them is empty or has one. -/
theorem combinationText_injective : Function.Injective combinationText := by
  have hnumbers : ∀ combination : List Int, ∀ s ∈ combination.map Text.Decimal.ofInt,
      s ≠ "" ∧ ',' ∉ s.toList := by
    intro combination s hs
    obtain ⟨i, -, rfl⟩ := List.mem_map.1 hs
    refine ⟨fun hempty => Text.Decimal.ofInt_ne_nil i (by rw [hempty]; rfl), fun hcomma => ?_⟩
    rcases Text.Decimal.mem_ofInt hcomma with hminus | hdigit
    · exact absurd hminus (by decide)
    · exact absurd hdigit (by decide)
  intro c c' h
  have hparts : c.map Text.Decimal.ofInt = c'.map Text.Decimal.ofInt :=
    Text.eq_of_intercalate rfl List.not_mem_nil (hnumbers c) (hnumbers c') h
  exact Text.Decimal.ofInt_injective.list_map hparts

end ShapeKey

/-- The key of a view is that of a shape iff the view has this shape. -/
theorem View.shapeKey_eq_iff {v : View} {predicate : String} {combination : List Int}
    {bound : Nat} : v.shapeKey = .ofShape predicate combination bound ↔
      v.shape = (predicate, combination, bound) := by
  simp only [shapeKey, ShapeKey.ofShape, ShapeKey.mk.injEq, shape, Prod.mk.injEq,
    ShapeKey.combinationText_injective.eq_iff]

/-! ## The registry -/

namespace ViewRegistry

theorem mem_of_lookup {r : ViewRegistry} {name : String} {v : View} (h : r.lookup name = some v) :
    v ∈ r.views ∧ v.name = name :=
  ⟨List.mem_reverse.1 (List.mem_of_find?_eq_some h), eq_of_beq (List.find?_some h :)⟩

theorem exists_lookup {r : ViewRegistry} {v : View} (hv : v ∈ r.views) :
    ∃ w, r.lookup v.name = some w := by
  have hsome : (r.lookup v.name).isSome :=
    List.find?_isSome.2 ⟨v, List.mem_reverse.2 hv, beq_iff_eq.2 rfl⟩
  exact Option.isSome_iff_exists.1 hsome

/-- Names and shapes of views are in step: views are numbered by predicate, and neither two names
nor two shapes are the same. -/
structure Tidy (r : ViewRegistry) : Prop where
  numbered : ∀ v ∈ r.views, ∃ n ≤ (r.ofPredicate v.predicate).length,
    v.name = View.nameOf v.predicate n
  names : ∀ v ∈ r.views, ∀ w ∈ r.views, v.name = w.name → v = w
  shapes : ∀ v ∈ r.views, ∀ w ∈ r.views, v.shape = w.shape → v = w

theorem tidy_empty : empty.Tidy := ⟨nofun, nofun, nofun⟩

theorem Tidy.of_views_eq {r r' : ViewRegistry} (h : r.Tidy) (hviews : r'.views = r.views) :
    r'.Tidy := by
  obtain ⟨views, aliases⟩ := r
  obtain ⟨views', aliases'⟩ := r'
  obtain rfl : views' = views := hviews
  exact ⟨h.numbered, h.names, h.shapes⟩

/-- The view that a new shape gets. -/
def fresh (r : ViewRegistry) (predicate : String) (combination : List Int) (bound : Nat) : View :=
  ⟨View.nameOf predicate ((r.ofPredicate predicate).length + 1), predicate, combination, bound⟩

section Resolve

variable {r : ViewRegistry} {predicate : String} {combination : List Int} {bound : Nat}

/-- A shape has its view already, or gets the next one of its predicate. -/
theorem resolve_cases (r : ViewRegistry) (predicate : String) (combination : List Int)
    (bound : Nat) :
    (∃ v ∈ r.views, v.shape = (predicate, combination, bound)
        ∧ r.resolve predicate combination bound = (v, r, []))
      ∨ (∀ v ∈ r.views, v.shape ≠ (predicate, combination, bound))
        ∧ r.resolve predicate combination bound
          = (r.fresh predicate combination bound,
            { r with views := r.views ++ [r.fresh predicate combination bound] },
            [.minted (r.fresh predicate combination bound)]) := by
  unfold resolve
  split
  case h_1 v hfind =>
    have hkey := eq_of_beq (List.find?_some hfind :)
    exact .inl ⟨v, List.mem_of_find?_eq_some hfind, View.shapeKey_eq_iff.1 hkey, rfl⟩
  case h_2 hnone =>
    refine .inr ⟨fun v hv hshape => ?_, rfl⟩
    exact List.find?_eq_none.1 hnone v hv (beq_iff_eq.2 (View.shapeKey_eq_iff.2 hshape))

/-- A name that was given before is not that of the next view. -/
theorem Tidy.fresh_name_ne (h : r.Tidy) {v : View} (hv : v ∈ r.views) :
    v.name ≠ (r.fresh predicate combination bound).name := by
  intro hname
  obtain ⟨n, hn, hnumbered⟩ := h.numbered v hv
  obtain ⟨hpredicate, hnumber⟩ := View.nameOf_injective (hnumbered.symm.trans hname)
  rw [hpredicate] at hn
  omega

theorem Tidy.mint (h : r.Tidy) (hnew : ∀ v ∈ r.views, v.shape ≠ (predicate, combination, bound)) :
    ({ r with views := r.views ++ [r.fresh predicate combination bound] } : ViewRegistry).Tidy := by
  refine ⟨?_, ?_, ?_⟩
  · intro v hv
    unfold ofPredicate
    rw [List.filter_append, List.length_append]
    rcases List.mem_append.1 hv with hv | hv
    · obtain ⟨n, hn, hname⟩ := h.numbered v hv
      exact ⟨n, Nat.le_add_right_of_le hn, hname⟩
    · obtain rfl := List.mem_singleton.1 hv
      refine ⟨(r.ofPredicate predicate).length + 1, ?_, rfl⟩
      simp [fresh, ofPredicate]
  · intro v hv w hw hname
    rcases List.mem_append.1 hv with hv | hv <;> rcases List.mem_append.1 hw with hw | hw
    · exact h.names v hv w hw hname
    · rw [List.mem_singleton.1 hw] at hname
      exact absurd hname (h.fresh_name_ne hv)
    · rw [List.mem_singleton.1 hv] at hname
      exact absurd hname.symm (h.fresh_name_ne hw)
    · rw [List.mem_singleton.1 hv, List.mem_singleton.1 hw]
  · intro v hv w hw hshape
    rcases List.mem_append.1 hv with hv | hv <;> rcases List.mem_append.1 hw with hw | hw
    · exact h.shapes v hv w hw hshape
    · rw [List.mem_singleton.1 hw] at hshape
      exact absurd hshape (hnew v hv)
    · rw [List.mem_singleton.1 hv] at hshape
      exact absurd hshape.symm (hnew w hw)
    · rw [List.mem_singleton.1 hv, List.mem_singleton.1 hw]

/-- Looking up a shape gives a view of that shape, forgets no other view and keeps order. -/
theorem Tidy.resolve (h : r.Tidy) (predicate : String) (combination : List Int) (bound : Nat) :
    (r.resolve predicate combination bound).2.1.Tidy
      ∧ (∀ v ∈ r.views, v ∈ (r.resolve predicate combination bound).2.1.views)
      ∧ (r.resolve predicate combination bound).1
        ∈ (r.resolve predicate combination bound).2.1.views
      ∧ (r.resolve predicate combination bound).1.shape = (predicate, combination, bound) := by
  rcases resolve_cases r predicate combination bound with ⟨v, hv, hshape, heq⟩ | ⟨hnew, heq⟩
  · rw [heq]
    exact ⟨h, fun w hw => hw, hv, hshape⟩
  · rw [heq]
    exact ⟨h.mint hnew, fun w hw => List.mem_append_left _ hw,
      List.mem_append_right _ List.mem_cons_self, rfl⟩

end Resolve

/-- Aliases do not touch views. -/
theorem views_assignAlias (r : ViewRegistry) (v : View) (args : List Argument) (rule : Int) :
    (r.assignAlias v args rule).2.1.views = r.views := by
  unfold assignAlias
  split
  case h_1 => rfl
  case h_2 =>
    split
    case h_1 => rfl
    case h_2 =>
      dsimp only
      split <;> rfl

end ViewRegistry

/-! ## Equations and their views -/

/-- The view that an equation consults is in the registry, with the shape of the lookup. -/
def Equation.Named (registry : ViewRegistry) (e : Equation) : Prop :=
  ∀ c, e.consulting = some c → ∃ v ∈ registry.views, v.name = c.viewName ∧ v.shape = c.shape

theorem Equation.Named.mono {registry registry' : ViewRegistry} {e : Equation}
    (h : e.Named registry) (hkept : ∀ v ∈ registry.views, v ∈ registry'.views) :
    e.Named registry' := by
  intro c hc
  obtain ⟨v, hv, hview⟩ := h c hc
  exact ⟨v, hkept v hv, hview⟩

namespace Compilation

/-- A compilation that started from a registry succeeds with equations of given footprints, whose
views it has in a registry that is still tidy and has lost nothing. -/
structure Yields (registry : ViewRegistry) (c : Compilation) (footprints : List Footprint)
    (equations : List Equation) : Prop where
  result : c.result = .ok equations
  footprints : equations.map Equation.footprint = footprints
  tidy : c.registry.Tidy
  kept : ∀ v ∈ registry.views, v ∈ c.registry.views
  named : ∀ e ∈ equations, e.Named c.registry

theorem Yields.andThen {registry : ViewRegistry} {c : Compilation}
    {next : ViewRegistry → Compilation} {fs gs : List Footprint} {es more : List Equation}
    (h : Yields registry c fs es) (hnext : Yields c.registry (next c.registry) gs more) :
    Yields registry (c.andThen next) (fs ++ gs) (es ++ more) := by
  rw [andThen_of_ok h.result, hnext.result]
  refine ⟨rfl, ?_, hnext.tidy, fun v hv => hnext.kept v (h.kept v hv), ?_⟩
  · rw [List.map_append, h.footprints, hnext.footprints]
  · intro e he
    rcases List.mem_append.1 he with he | he
    · exact (h.named e he).mono hnext.kept
    · exact hnext.named e he

section Accepted

variable {p : Program} {registry : ViewRegistry}

theorem binary_yields (htidy : registry.Tidy) {consulting : Atom}
    (harity : p.arity? consulting.predicate = some (consulting.arity : Int)) (r : Rule)
    (number : Nat) (orientation : Orientation) (driving : Atom) :
    ∃ equations, Yields registry (binary p registry r number orientation driving consulting)
      [driving.footprint consulting] equations := by
  obtain ⟨hafter, hresult⟩ := binary_eq harity registry r number orientation driving
  obtain ⟨htidy', hkept, hmem, hshape⟩ := htidy.resolve consulting.predicate
    ((Arrangement.ofTerms (consulting.args.map
      (Equation.Columns.ofArgs driving.args).term)).combination.map Int.ofNat)
    (Arrangement.ofTerms (consulting.args.map (Equation.Columns.ofArgs driving.args).term)).bound
  -- giving an alias leaves the views alone
  have hviews := (congrArg ViewRegistry.views hafter).trans (ViewRegistry.views_assignAlias ..)
  refine ⟨_, hresult, ?_, htidy'.of_views_eq hviews, ?_, ?_⟩
  · exact congrArg (· :: []) (Equation.footprint_binary ⟨rfl, rfl⟩ r number)
  · intro v hv
    rw [hviews]
    exact hkept v hv
  · intro e he c hc
    obtain rfl := List.mem_singleton.1 he
    obtain rfl := Option.some.inj hc
    refine ⟨_, ?_, rfl, hshape⟩
    rw [hviews]
    exact hmem

/-- A rule of an accepted program leaves its footprints. -/
theorem ofRule_yields (hp : p.Accepted) {r : Rule} (hr : r ∈ p.rules) (htidy : registry.Tidy)
    (number : Nat) :
    ∃ equations, Yields registry (ofRule p registry r number) r.footprints equations := by
  unfold Rule.footprints
  rcases positive_cases (hp.safe r hr) with ⟨a, hpos⟩ | ⟨a, b, hpos⟩
  · rw [ofRule_unary hp hr hpos, hpos]
    refine ⟨_, rfl, rfl, htidy, fun v hv => hv, ?_⟩
    intro e he c hc
    rw [List.mem_singleton.1 he] at hc
    exact nomatch hc
  · obtain ⟨ha, hb⟩ := arity_pair hp hr hpos
    rw [ofRule_joined hp hr hpos, hpos]
    obtain ⟨es, hfirst⟩ := binary_yields htidy hb r number .firstDrives a
    obtain ⟨more, hsecond⟩ := binary_yields hfirst.tidy ha r number .secondDrives b
    exact ⟨es ++ more, hfirst.andThen hsecond⟩

theorem ofRules_yields (hp : p.Accepted) (rules : List (Rule × Nat)) :
    ∀ {registry : ViewRegistry}, registry.Tidy → (∀ ri ∈ rules, ri.1 ∈ p.rules) →
      ∃ equations, Yields registry (ofRules p registry rules)
        ((rules.map Prod.fst).flatMap Rule.footprints) equations := by
  induction rules with
  | nil =>
    intro registry htidy _
    exact ⟨[], rfl, rfl, htidy, fun v hv => hv, nofun⟩
  | cons ri rules ih =>
    intro registry htidy hrules
    obtain ⟨es, hfirst⟩ :=
      ofRule_yields hp (hrules ri List.mem_cons_self) htidy (ri.2 + 1)
    obtain ⟨more, hrest⟩ := ih hfirst.tidy fun qj hqj => hrules qj (List.mem_cons_of_mem ri hqj)
    exact ⟨es ++ more, hfirst.andThen hrest⟩

end Accepted

end Compilation

/-! ## Strata -/

/-- The lookups of equations, in order. -/
def Equation.consultations (equations : List Equation) : List Consultation :=
  equations.filterMap Equation.consulting

theorem ViewRegistry.map_name_lookup {registry : ViewRegistry} {names : List String}
    (h : ∀ name ∈ names, ∃ v ∈ registry.views, v.name = name) :
    (names.filterMap registry.lookup).map View.name = names := by
  induction names with
  | nil => rfl
  | cons name names ih =>
    obtain ⟨v, hv, rfl⟩ := h name List.mem_cons_self
    obtain ⟨w, hw⟩ := exists_lookup hv
    rw [List.filterMap_cons, hw, List.map_cons, (mem_of_lookup hw).2,
      ih fun other hother => h other (List.mem_cons_of_mem v.name hother)]

/-- The rules of a stratum have left their footprints in its plan, and the views that the plan
lists are those that its equations consult, all of them in a registry. -/
structure StratumPlan.Compiles (registry : ViewRegistry) (plan : StratumPlan) : Prop where
  footprints : plan.equations.map Equation.footprint = plan.rules.flatMap Rule.footprints
  named : ∀ e ∈ plan.equations, e.Named registry
  views : plan.views.views.map View.name
    = Names.ofList ((Equation.consultations plan.equations).map Consultation.viewName)

theorem StratumPlan.Compiles.mono {registry registry' : ViewRegistry} {plan : StratumPlan}
    (h : plan.Compiles registry) (hkept : ∀ v ∈ registry.views, v ∈ registry'.views) :
    plan.Compiles registry' :=
  { h with named := fun e he => (h.named e he).mono hkept }

/-- The number of a stratum and its rules. -/
def Stratum.outline (p : Program) (s : Stratum) : Nat × List Rule := (s.index, s.members p)

/-- The number of a stratum and its rules, in its plan. -/
def StratumPlan.outline (plan : StratumPlan) : Nat × List Rule := (plan.index, plan.rules)

theorem StratumPlan.ofStratum_compiles {p : Program} (hp : p.Accepted) (order : EvalOrder)
    {registry : ViewRegistry} (htidy : registry.Tidy) (s : Stratum) :
    (ofStratum p order registry s).registry.Tidy
      ∧ (∀ v ∈ registry.views, v ∈ (ofStratum p order registry s).registry.views)
      ∧ ∃ plan, (ofStratum p order registry s).result = .ok plan
        ∧ plan.outline = s.outline p ∧ plan.Compiles (ofStratum p order registry s).registry := by
  obtain ⟨equations, hyields⟩ :=
    Compilation.ofRules_yields hp (s.placed p) htidy Stratum.mem_rules_of_placed
  have hresult := hyields.result
  unfold Stratum.placed at hresult
  unfold ofStratum
  dsimp only
  rw [hresult]
  refine ⟨hyields.tidy, hyields.kept, _, rfl,
    congrArg (Prod.mk s.index) (Stratum.map_fst_placed p s), hyields.footprints, hyields.named, ?_⟩
  refine ViewRegistry.map_name_lookup fun name hname => ?_
  obtain ⟨c, hc, rfl⟩ := List.mem_map.1 (Names.mem_ofList.1 hname)
  obtain ⟨e, he, hconsulting⟩ := List.mem_filterMap.1 hc
  obtain ⟨v, hv, hview, -⟩ := hyields.named e he c hconsulting
  exact ⟨v, hv, hview⟩

/-- All strata compile against one registry, which ends up tidy. -/
theorem Plan.strataStage_compiles {p : Program} (hp : p.Accepted) (order : EvalOrder)
    (strata : List Stratum) :
    ∀ {registry : ViewRegistry}, registry.Tidy →
      ∃ plans final, (strataStage p order registry strata).result = .ok plans
        ∧ final.Tidy ∧ (∀ v ∈ registry.views, v ∈ final.views)
        ∧ plans.map StratumPlan.outline = strata.map (Stratum.outline p)
        ∧ ∀ plan ∈ plans, plan.Compiles final := by
  induction strata with
  | nil =>
    intro registry htidy
    exact ⟨[], registry, rfl, htidy, fun v hv => hv, rfl, nofun⟩
  | cons s strata ih =>
    intro registry htidy
    obtain ⟨htidy', hkept, plan, hplan, houtline, hcompiles⟩ :=
      StratumPlan.ofStratum_compiles hp order htidy s
    obtain ⟨plans, final, hplans, hfinal, hkept', houtlines, hall⟩ := ih htidy'
    obtain ⟨last, hrun⟩ := strataStage_eq_ok_iff.1 hplans
    refine ⟨plan :: plans, final, strataStage_eq_ok_iff.2 ⟨last, .cons hplan hrun⟩, hfinal,
      fun v hv => hkept' v (hkept v hv), ?_, ?_⟩
    · rw [List.map_cons, List.map_cons, houtline, houtlines]
    · intro other hother
      rcases List.mem_cons.1 hother with rfl | hother
      · exact hcompiles.mono hkept'
      · exact hall other hother

/-! ## Counting -/

/-- The number of names in a set. -/
theorem Names.length_ofList (names : List String) :
    (ofList names).length = names.toFinset.card := by
  rw [← List.toFinset_card_of_nodup (nodup_ofList names)]
  congr 1
  ext x
  rw [List.mem_toFinset, List.mem_toFinset, mem_ofList]

/-- As many views are consulted as there are shapes, since either can be told from the other. -/
theorem ViewRegistry.Tidy.card_viewNames {registry : ViewRegistry} (h : registry.Tidy)
    {consultations : List Consultation}
    (hnamed : ∀ c ∈ consultations, ∃ v ∈ registry.views, v.name = c.viewName ∧ v.shape = c.shape) :
    (consultations.map Consultation.viewName).toFinset.card
      = (consultations.map Consultation.shape).toFinset.card := by
  -- both are images of the views that are consulted
  let consulted : Finset View :=
    registry.views.toFinset.filter fun v => ∃ c ∈ consultations, v.name = c.viewName
  have hmem : ∀ v, v ∈ consulted ↔ v ∈ registry.views ∧ ∃ c ∈ consultations, v.name = c.viewName := by
    intro v
    rw [Finset.mem_filter, List.mem_toFinset]
  have hnames : (consultations.map Consultation.viewName).toFinset = consulted.image View.name := by
    ext name
    simp only [List.mem_toFinset, List.mem_map, Finset.mem_image, hmem]
    constructor
    · rintro ⟨c, hc, rfl⟩
      obtain ⟨v, hv, hname, -⟩ := hnamed c hc
      exact ⟨v, ⟨hv, c, hc, hname⟩, hname⟩
    · rintro ⟨v, ⟨-, c, hc, hname⟩, rfl⟩
      exact ⟨c, hc, hname.symm⟩
  have hshapes : (consultations.map Consultation.shape).toFinset = consulted.image View.shape := by
    ext shape
    simp only [List.mem_toFinset, List.mem_map, Finset.mem_image, hmem]
    constructor
    · rintro ⟨c, hc, rfl⟩
      obtain ⟨v, hv, hname, hshape⟩ := hnamed c hc
      exact ⟨v, ⟨hv, c, hc, hname⟩, hshape⟩
    · rintro ⟨v, ⟨hv, c, hc, hname⟩, rfl⟩
      obtain ⟨w, hw, hname', hshape⟩ := hnamed c hc
      rw [h.names v hv w hw (hname.trans hname'.symm)]
      exact ⟨c, hc, hshape.symm⟩
  rw [hnames, hshapes, Finset.card_image_of_injOn, Finset.card_image_of_injOn]
  · intro v hv w hw hshape
    exact h.shapes v ((hmem v).1 hv).1 w ((hmem w).1 hw).1 hshape
  · intro v hv w hw hname
    exact h.names v ((hmem v).1 hv).1 w ((hmem w).1 hw).1 hname

theorem Equation.map_shape_consultations (equations : List Equation) :
    (consultations equations).map Consultation.shape
      = (equations.map footprint).filterMap Prod.snd := by
  unfold consultations
  rw [List.map_filterMap, List.filterMap_map]
  rfl

namespace Plan

/-- The strata of a plan are those of its program, compiled against one tidy registry. -/
theorem exists_compiles_of_compile {request : Request} {plan : Plan}
    (h : (compile request).result = .ok plan) :
    ∃ strata passes registry, (Layering.ofProgram plan.program).result = .ok (strata, passes)
      ∧ registry.Tidy
      ∧ plan.strata.map StratumPlan.outline = strata.map (Stratum.outline plan.program)
      ∧ ∀ s ∈ plan.strata, s.Compiles registry := by
  obtain ⟨p, strata, passes, plans, hsource, hlayering, hplans, -, rfl⟩ := compile_eq_ok_iff.1 h
  obtain ⟨plans', registry, hplans', htidy, -, houtlines, hall⟩ := strataStage_compiles
    (Program.accepted_of_ofSource hsource) (orderOf p) strata ViewRegistry.tidy_empty
  obtain rfl : plans' = plans := Except.ok.inj (hplans'.symm.trans hplans)
  exact ⟨strata, passes, registry, hlayering, htidy, houtlines, hall⟩

/-- The rules of a plan, stratum after stratum. -/
def rules (plan : Plan) : List Rule := plan.strata.flatMap StratumPlan.rules

section Compiled

variable {request : Request} {plan : Plan}

/-- The equations of a plan leave the footprints of its rules. -/
theorem footprints_of_compile (h : (compile request).result = .ok plan) :
    plan.equations.map Equation.footprint = plan.rules.flatMap Rule.footprints := by
  obtain ⟨strata, passes, registry, -, -, -, hall⟩ := exists_compiles_of_compile h
  unfold equations rules
  rw [List.map_flatMap, List.flatMap_assoc]
  exact List.flatMap_congr fun s hs => (hall s hs).footprints

/-- A plan has as many equations as its rules have footprints. -/
theorem equationCount_of_compile (h : (compile request).result = .ok plan) :
    plan.equationCount = (plan.rules.flatMap Rule.footprints).length := by
  have hlength : plan.equationCount = plan.equations.length := by
    unfold equationCount equations
    rw [List.length_flatMap, ← List.foldl_map (f := fun s : StratumPlan => s.equations.length)
      (g := fun n m => n + m), List.sum_eq_foldl]
  rw [hlength, ← footprints_of_compile h, List.length_map]

/-- A plan has as many views as there are shapes in the footprints of its rules. -/
theorem viewCount_of_compile (h : (compile request).result = .ok plan) :
    plan.viewCount = ((plan.rules.flatMap Rule.footprints).filterMap Prod.snd).toFinset.card := by
  obtain ⟨strata, passes, registry, -, htidy, -, hall⟩ := exists_compiles_of_compile h
  have hnames : (plan.strata.flatMap fun s => s.views.views.map View.name).toFinset
      = ((Equation.consultations plan.equations).map Consultation.viewName).toFinset := by
    ext name
    unfold equations Equation.consultations
    rw [List.mem_toFinset, List.mem_toFinset, List.filterMap_flatMap, List.map_flatMap,
      List.mem_flatMap, List.mem_flatMap]
    refine exists_congr fun s => and_congr_right fun hs => ?_
    rw [(hall s hs).views, Names.mem_ofList]
    rfl
  have hnamed : ∀ c ∈ Equation.consultations plan.equations,
      ∃ v ∈ registry.views, v.name = c.viewName ∧ v.shape = c.shape := by
    intro c hc
    obtain ⟨e, he, hconsulting⟩ := List.mem_filterMap.1 hc
    obtain ⟨s, hs, hes⟩ := List.mem_flatMap.1 he
    exact (hall s hs).named e hes c hconsulting
  unfold viewCount
  rw [Names.length_ofList, hnames, htidy.card_viewNames hnamed, Equation.map_shape_consultations,
    footprints_of_compile h]

end Compiled

end Plan

end RulePlan
