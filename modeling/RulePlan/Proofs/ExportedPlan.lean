import RulePlan.Proofs.ClosedEquations
import RulePlan.Proofs.DocumentText
import RulePlan.Proofs.Reordering
import RulePlan.Proofs.SourceBounds
import RulePlan.Proofs.ViewNames

/-!
# RulePlan.Proofs.ExportedPlan — exported plans are read back unchanged

The document of a plan is portable, and so survives its text. Its texts are the names and
expressions of the rules, which print whatever else the source holds, and what is made of them with
fixed signs and numbers: rewritten terms, names of views, aliases. Its numbers are counted in the
source. What holds of the rules is carried along the compilation by the registry of views, which
hands out the names, and by the equations.

Outputs are exported if they are predicates of the rules, and else the request is refused. The file
name is exported as it was given, so it has to print too.
-/

namespace RulePlan

open Text Yaml.Form

/-! ## Numbers and digests -/

theorem Yaml.Form.IsSize.of_le {m n : Nat} (h : IsSize n) (hle : m ≤ n) : IsSize m := by
  unfold IsSize at h ⊢
  omega

/-! ## Terms and expressions -/

/-- A term whose variable prints, if it has one, prints. -/
theorem Term.legible_render {t : Term} (h : ∀ x, t = .argument (.var x) → IsPrintableAscii x) :
    IsPrintableAscii t.render := by
  match t with
  | .column i => exact legible_append.2 ⟨by decide, legible_ofInt i⟩
  | .argument (.const v) => exact legible_ofInt64 v
  | .argument (.var x) => exact h x rfl

namespace Equation.Columns

/-- Rewritten arguments are columns or print as they did. -/
theorem legible_term (c : Columns) {arg : Argument} (h : ∀ x, arg = .var x → IsPrintableAscii x) :
    IsPrintableAscii (c.term arg).render := by
  refine Term.legible_render fun x hx => h x ?_
  match arg with
  | .const v => cases hx
  | .var y =>
    rw [term] at hx
    split at hx
    · cases hx
    · exact Term.argument.inj hx

theorem legible_terms (c : Columns) {a : Atom} (h : a.Legible) :
    Legibles ((a.args.map c.term).map Term.render) := by
  intro s hs
  obtain ⟨t, ht, rfl⟩ := List.mem_map.1 hs
  obtain ⟨arg, harg, rfl⟩ := List.mem_map.1 ht
  refine c.legible_term fun x hx => h.args x ?_
  rwa [← hx]

theorem legible_operands (c : Columns) {e : Expression} (h : e.Legible) :
    ∀ o ∈ c.operands e, IsPrintableAscii o.render := by
  intro o ho
  obtain ⟨piece, hpiece, rfl⟩ := List.mem_map.1 ho
  split
  · exact c.legible_term fun x hx => Argument.var.inj hx ▸ h.2 piece hpiece
  · exact h.2 piece hpiece

/-- Selections compare with columns and constants only. -/
theorem legible_selection {args : List Argument} {s : Selection}
    (h : s ∈ (ofArgs args).selections) : IsPrintableAscii s.render := by
  have hequals : IsPrintableAscii s.equals.render := by
    refine Term.legible_render fun x hx => ?_
    have hfree := (selection_bound h).2.1
    rw [hx] at hfree
    cases hfree
  have hplace : IsPrintableAscii (Term.column s.column).render := by
    refine Term.legible_render fun x hx => ?_
    cases hx
  rw [Selection.render, legible_append, legible_append]
  exact ⟨⟨hplace, by decide⟩, hequals⟩

end Equation.Columns

theorem Operand.legible_renderAll {os : List Operand} (h : ∀ o ∈ os, IsPrintableAscii o.render) :
    IsPrintableAscii (renderAll os) := by
  have hafter : ∀ {os : List Operand}, (∀ o ∈ os, IsPrintableAscii o.render) → ∀ before,
      IsPrintableAscii (renderAfter before os) := by
    intro os
    induction os with
    | nil => exact fun _ _ => legible_empty
    | cons o os ih =>
      intro h before
      obtain ⟨ho, hos⟩ := List.forall_mem_cons.1 h
      rw [renderAfter, legible_append, legible_append]
      exact ⟨⟨by split <;> decide, ho⟩, ih hos o⟩
  cases os with
  | nil => exact legible_empty
  | cons o os =>
    obtain ⟨ho, hos⟩ := List.forall_mem_cons.1 h
    exact legible_append.2 ⟨ho, hafter hos o⟩

/-! ## Views -/

/-- The columns of an arrangement are places of its terms. -/
theorem Arrangement.isSize_ofTerms {terms : List Term} (h : IsSize terms.length) :
    Sizes ((ofTerms terms).combination.map Int.ofNat) ∧ IsSize (ofTerms terms).bound := by
  constructor
  · intro n hn
    obtain ⟨i, hi, rfl⟩ := List.mem_map.1 hn
    exact h.of_le (List.mem_range.1 ((combination_perm terms).mem_iff.1 hi)).le
  · refine h.of_le ?_
    rw [← length_combination terms]
    exact (List.sublist_append_left _ _).length_le

structure View.Portable (v : View) : Prop where
  name : IsPrintableAscii v.name
  predicate : IsPrintableAscii v.predicate
  combination : Sizes v.combination
  bound : IsSize v.bound

namespace ViewRegistry

/-- The names that a registry hands out print, and its numbers are lengths. -/
structure Portable (r : ViewRegistry) : Prop where
  views : ∀ v ∈ r.views, v.Portable
  aliases : ∀ a ∈ r.aliases, IsPrintableAscii a.1

theorem portable_empty : empty.Portable := ⟨nofun, nofun⟩

theorem Portable.resolve {r : ViewRegistry} (h : r.Portable) {predicate : String}
    {combination : List Int} {bound : Nat} (hpredicate : IsPrintableAscii predicate)
    (hcombination : Sizes combination) (hbound : IsSize bound) :
    (r.resolve predicate combination bound).1.Portable
      ∧ (r.resolve predicate combination bound).2.1.Portable := by
  rcases resolve_cases r predicate combination bound with ⟨v, hv, -, heq⟩ | ⟨-, heq⟩
  · rw [heq]
    exact ⟨h.views v hv, h⟩
  · have hfresh : (r.fresh predicate combination bound).Portable := by
      refine ⟨?_, hpredicate, hcombination, hbound⟩
      exact legible_append.2 ⟨legible_append.2 ⟨hpredicate, by decide⟩, legible_ofNat _⟩
    rw [heq]
    exact ⟨hfresh, List.forall_mem_append.2 ⟨h.views, List.forall_mem_singleton.2 hfresh⟩,
      h.aliases⟩

theorem legible_aliasText? {v : View} (hv : v.Portable) {a : Atom} (ha : a.Legible)
    {text : String} (h : aliasText? v a.args = some text) : IsPrintableAscii text := by
  obtain ⟨arranged, harranged, rfl⟩ := Option.map_eq_some_iff.1 h
  refine legible_intercalate (by decide) (List.forall_mem_cons.2 ⟨hv.predicate, ?_⟩)
  intro s hs
  obtain ⟨arg, harg, rfl⟩ := List.mem_map.1 hs
  have hfound := mapM_eq_some_iff.1 harranged ▸ List.mem_map_of_mem harg
  obtain ⟨place, -, hplace⟩ := List.mem_map.1 hfound
  cases arg with
  | var x =>
    refine legible_lowerCase (ha.args x ?_)
    unfold argument? at hplace
    split at hplace
    · cases hplace
    · exact List.mem_of_getElem? hplace
  | const v =>
    rw [aliasPart]
    split
    · rw [legible_append]
      exact ⟨by decide, legible_ofInt64 _⟩
    · exact legible_ofInt64 v

theorem legible_spelling {base : String} (h : IsPrintableAscii base) (rule : Int) :
    ∀ n, IsPrintableAscii (spelling base rule n)
  | 0 => h
  | 1 => legible_append.2 ⟨legible_append.2 ⟨h, by decide⟩, legible_ofInt rule⟩
  | n + 2 => by
    rw [spelling, variant]
    simp only [legible_append]
    exact ⟨⟨⟨⟨h, by decide⟩, legible_ofInt rule⟩, by decide⟩, legible_ofNat _⟩

theorem Portable.assignAlias {r : ViewRegistry} (h : r.Portable) {v : View} (hv : v.Portable)
    {a : Atom} (ha : a.Legible) (rule : Int) :
    IsPrintableAscii (r.assignAlias v a.args rule).1
      ∧ (r.assignAlias v a.args rule).2.1.Portable := by
  rcases assignAlias_cases r v a.args rule with
    ⟨known, hknown, heq⟩ | ⟨-, ⟨-, heq⟩ | ⟨base, chosen, notices, hbase, ⟨n, rfl, -⟩, heq⟩⟩
  · rw [heq]
    exact ⟨h.aliases _ hknown, h⟩
  · rw [heq]
    exact ⟨legible_empty, h⟩
  · have hchosen := legible_spelling (legible_aliasText? hv ha hbase) rule n
    rw [heq]
    exact ⟨hchosen, h.views,
      List.forall_mem_append.2 ⟨h.aliases, List.forall_mem_singleton.2 hchosen⟩⟩

end ViewRegistry

/-! ## Equations -/

/-- A rule prints, and its line and its arities are lengths. -/
structure Rule.Portable (r : Rule) : Prop where
  legible : r.Legible
  line : IsSize r.line
  arity : ∀ a ∈ r.atoms, IsSize a.arity

structure Consultation.Portable (c : Consultation) : Prop where
  predicate : IsPrintableAscii c.predicate
  common : ∀ q ∈ c.common, (Document.ofPlacement q).Portable
  view : Legibles (c.view.map Term.render)
  combination : Sizes (c.combination.map Int.ofNat)
  bound : IsSize c.bound
  viewName : IsPrintableAscii c.viewName
  viewAlias : IsPrintableAscii c.viewAlias

/-- What holds of a value that there may be and of its default. -/
theorem holds_getD_map {α β : Type} {P : β → Prop} {o : Option α} {f : α → β} {d : β} (hd : P d)
    (hf : ∀ a ∈ o, P (f a)) : P ((o.map f).getD d) := by
  cases o with
  | none => exact hd
  | some a => exact hf a rfl

namespace Rule.Portable

variable {r : Rule} (h : r.Portable) {a : Atom}

include h

theorem legible_of_positive (ha : a ∈ r.positive) : a.Legible :=
  h.legible.atoms a (Compilation.positive_subset_atoms ha)

theorem isSize_of_positive (ha : a ∈ r.positive) {n : Nat} (hn : n ≤ a.args.length) : IsSize n :=
  (h.arity a (Compilation.positive_subset_atoms ha)).of_le hn

theorem isSize_terms (ha : a ∈ r.positive) (c : Equation.Columns) :
    IsSize (a.args.map c.term).length := by
  rw [List.length_map]
  exact h.isSize_of_positive ha (Nat.le_refl _)

/-- The places of the variables of a driving atom. -/
theorem placement (ha : a ∈ r.positive) {q : Placement}
    (hq : q ∈ (Equation.Columns.ofArgs a.args).positions) :
    (Document.ofPlacement q).Portable where
  var := by
    refine (h.legible_of_positive ha).args q.name (List.isSome_idxOf?.1 ?_)
    rw [Equation.Columns.mem_positions_ofArgs_iff.1 hq]
    rfl
  position := h.isSize_of_positive ha (Equation.Columns.column_lt_of_mem_positions hq).le

/-- The lookup of one positive atom from another. -/
theorem consultation (ha : a ∈ r.positive) {b : Atom} (hb : b ∈ r.positive)
    (orientation : Orientation) {viewName viewAlias : String} (hname : IsPrintableAscii viewName)
    (halias : IsPrintableAscii viewAlias) :
    (Consultation.between orientation a b viewName viewAlias).Portable where
  predicate := (h.legible_of_positive hb).predicate
  common := by
    intro q hq
    exact h.placement ha (Equation.Columns.mem_positions_of_mem_common hq)
  view := by
    intro s hs
    obtain ⟨t, ht, rfl⟩ := List.mem_map.1 hs
    exact Equation.Columns.legible_terms _ (h.legible_of_positive hb) _
      (List.mem_map_of_mem (Arrangement.mem_terms_ofTerms.1 ht))
  combination := (Arrangement.isSize_ofTerms (h.isSize_terms hb _)).1
  bound := (Arrangement.isSize_ofTerms (h.isSize_terms hb _)).2
  viewName := hname
  viewAlias := halias

/-- The equation that a positive atom drives. -/
theorem equation (ha : a ∈ r.positive) {number : Nat} (hnumber : IsSize number)
    {consulting : Option Consultation} (hconsulting : ∀ c ∈ consulting, c.Portable) :
    (Document.ofEquation (.ofRule r number a consulting)).Portable where
  kind := by
    show IsPrintableAscii (Equation.kindLabel (if consulting.isSome then 2 else 1))
    split <;> decide
  orientation := holds_getD_map (P := IsPrintableAscii) legible_empty fun c _ => by
    cases c.orientation <;> decide
  rule := hnumber
  line := h.line
  head := h.legible.head.predicate
  headArgs := Equation.Columns.legible_terms _ h.legible.head
  driving := (h.legible_of_positive ha).predicate
  positions := List.forall_mem_map.2 fun q hq => h.placement ha hq
  selections := List.forall_mem_map.2 fun s hs => Equation.Columns.legible_selection hs
  consulting := holds_getD_map (P := IsPrintableAscii) legible_empty
    fun c hc => (hconsulting c hc).predicate
  commonVars := holds_getD_map (P := fun l => ∀ q ∈ l, PositionDoc.Portable q) nofun
    fun c hc => List.forall_mem_map.2 (hconsulting c hc).common
  view := holds_getD_map (P := Legibles) nofun fun c hc => (hconsulting c hc).view
  combination := holds_getD_map (P := Sizes) nofun fun c hc => (hconsulting c hc).combination
  bound := holds_getD_map (P := IsSize) ⟨Int.le_refl 0, by decide⟩
    fun c hc => (hconsulting c hc).bound
  viewName := holds_getD_map (P := IsPrintableAscii) legible_empty
    fun c hc => (hconsulting c hc).viewName
  viewAlias := holds_getD_map (P := IsPrintableAscii) legible_empty
    fun c hc => (hconsulting c hc).viewAlias
  condition := by
    refine holds_getD_map (P := IsPrintableAscii) legible_empty fun operands hoperands => ?_
    obtain ⟨e, he, rfl⟩ := Option.map_eq_some_iff.1 hoperands
    exact Operand.legible_renderAll (Equation.Columns.legible_operands _ (h.legible.test? he))
  assignment := by
    refine holds_getD_map (P := IsPrintableAscii) legible_empty fun assigned hassigned => ?_
    obtain ⟨te, hte, rfl⟩ := Option.map_eq_some_iff.1 hassigned
    obtain ⟨htarget, hvalue⟩ := h.legible.assignment? hte
    show IsPrintableAscii (te.1 ++ " := " ++ Operand.renderAll _)
    rw [legible_append, legible_append]
    exact ⟨⟨htarget, by decide⟩,
      Operand.legible_renderAll (Equation.Columns.legible_operands _ hvalue)⟩
  negated := by
    refine List.forall_mem_map.2 fun n hn => ?_
    obtain ⟨b, hb, rfl⟩ := List.mem_map.1 hn
    have hlegible := h.legible.atoms b (negative_subset_atoms hb)
    unfold NegatedAtom.render Term.renderAll
    simp only [legible_append]
    refine ⟨⟨by decide, hlegible.predicate⟩, ⟨by decide, ?_⟩, by decide⟩
    exact legible_intercalate (by decide) (Equation.Columns.legible_terms _ hlegible)

end Rule.Portable

/-- The rules of a program keep the registry portable, and their equations are. -/
theorem Compilation.ofRule_portable {p : Program} (hp : p.Accepted) {r : Rule} (hr : r ∈ p.rules)
    (hportable : r.Portable) {number : Nat} (hnumber : IsSize number) {registry : ViewRegistry}
    (hregistry : registry.Portable) :
    (ofRule p registry r number).Upholds ViewRegistry.Portable
      fun e => (Document.ofEquation e).Portable := by
  refine ofRule_upholds hp hr ?_ ?_ hregistry
  · intro a hpos
    have ha : a ∈ r.positive := hpos ▸ List.mem_cons_self
    exact hportable.equation ha hnumber nofun
  · intro registry hregistry orientation a b hpos
    have hmem : a ∈ r.positive ∧ b ∈ r.positive := by
      rcases hpos with hpos | hpos <;> simp [hpos]
    have harity := hp.arity r hr b (positive_subset_atoms hmem.2)
    obtain ⟨hafter, hresult⟩ := binary_eq harity registry r number orientation a
    -- the view and its alias get their names, then the equation is made
    have hlegible := hportable.legible_of_positive hmem.2
    obtain ⟨hcombination, hbound⟩ :=
      Arrangement.isSize_ofTerms (hportable.isSize_terms hmem.2 (Equation.Columns.ofArgs a.args))
    obtain ⟨hview, hresolved⟩ := hregistry.resolve hlegible.predicate hcombination hbound
    obtain ⟨halias, hnamed⟩ := hresolved.assignAlias hview hlegible number
    refine ⟨hafter ▸ hnamed, ?_⟩
    intro equations hequations e he
    rw [hresult] at hequations
    obtain rfl := Except.ok.inj hequations
    rw [List.mem_singleton.1 he]
    refine hportable.equation hmem.1 hnumber ?_
    rintro c ⟨⟩
    exact hportable.consultation hmem.1 hmem.2 orientation hview.name halias

/-! ## Strata -/

/-- The views of a stratum come from the registry, their aliases from the equations. -/
theorem ViewRegistry.Portable.ofViews {registry : ViewRegistry} (h : registry.Portable)
    {equations : List Equation} (hequations : ∀ e ∈ equations, (Document.ofEquation e).Portable) :
    ∀ v ∈ Document.ofViews (.ofEquations equations registry), v.Portable := by
  intro d hd
  obtain ⟨name, -, hname⟩ := List.mem_filterMap.1 hd
  obtain ⟨v, hv, rfl⟩ := Option.map_eq_some_iff.1 hname
  obtain ⟨x, -, hx⟩ := List.mem_filterMap.1 (List.mem_of_find?_eq_some hv)
  have hview : v.Portable := h.views v (ViewRegistry.mem_of_lookup hx).1
  have haliases : ∀ y ∈ (ViewsData.ofEquations equations registry).aliases,
      IsPrintableAscii y.1 := by
    intro y hy
    obtain ⟨c, hc, rfl⟩ := List.mem_map.1 (List.mem_eraseDups.1 hy)
    obtain ⟨e, he, hec⟩ := List.mem_filterMap.1 hc
    have halias := (hequations e he).viewAlias
    unfold Document.ofEquation at halias
    rwa [hec] at halias
  refine ⟨hview.name, ?_, hview.predicate, hview.combination, hview.bound⟩
  -- the first alias of the view in order of name, or none
  show IsPrintableAscii (Document.aliasOf _ name)
  unfold Document.aliasOf
  cases hlisted : Names.sorted _ with
  | nil => exact legible_empty
  | cons first rest =>
    have hfirst := Names.mem_sorted.1 (hlisted ▸ List.mem_cons_self (a := first) (l := rest))
    obtain ⟨y, hy, rfl⟩ := List.mem_map.1 hfirst
    exact haliases y (List.mem_filter.1 hy).1

theorem EvalOrder.portable_of_all {o : EvalOrder} (h : ∀ x ∈ o.all, IsPrintableAscii x) :
    (Document.ofOrder o).Portable where
  block1 := fun x hx => h x (List.mem_append_left _ (List.mem_append_left _ hx))
  block2 := fun x hx => h x (List.mem_append_left _ (List.mem_append_right _ hx))
  block3 := fun x hx => h x (List.mem_append_right _ hx)

theorem EvalOrder.mem_of_mem_restrict {o : EvalOrder} {names : Names} {x : String}
    (h : x ∈ (o.restrict names).all) : x ∈ o.all := by
  unfold all restrict at h
  rw [← List.filter_append, ← List.filter_append] at h
  exact (List.mem_filter.1 h).1

theorem StratumPlan.Upholds.portable {p : Program} {order : EvalOrder} {s : StratumPlan}
    (h : s.Upholds ViewRegistry.Portable (fun e => (Document.ofEquation e).Portable) p order)
    (hrules : ∀ r ∈ p.rules, r.Portable) (hcount : IsSize p.rules.length)
    (horder : ∀ x ∈ order.all, IsPrintableAscii x) : (Document.ofStratum s).Portable where
  index := hcount.of_le h.index_lt.le
  rules := List.forall_mem_map.2 fun r hr => (hrules r (h.rules r hr)).legible.render
  equations := List.forall_mem_map.2 h.equations
  views := by
    obtain ⟨registry, hregistry, hviews⟩ := h.views
    unfold Document.ofStratum
    rw [hviews]
    exact hregistry.ofViews h.equations
  order := by
    obtain ⟨members, hmembers⟩ := h.order
    refine EvalOrder.portable_of_all fun x hx => horder x ?_
    rw [hmembers] at hx
    exact EvalOrder.mem_of_mem_restrict hx

/-! ## Predicates to keep -/

theorem Reason.isName_label (reason : Reason) :
    Yaml.Plain.IsName reason.label.toList ∧ Yaml.Style.ofText reason.label = .plain := by
  refine ⟨⟨?_, ?_⟩, ?_⟩
  · cases reason <;> exact ⟨_, rfl, by decide⟩
  · cases reason <;> exact List.all_eq_true.1 (by decide)
  · cases reason <;> decide +kernel

namespace Solution

theorem legible_ofEquation {e : Equation} (h : (Document.ofEquation e).Portable) :
    ∀ q ∈ ofEquation e, IsPrintableAscii q.1 := by
  intro q hq
  unfold ofEquation at hq
  cases hc : e.consulting with
  | none =>
    rw [hc] at hq
    exact absurd hq List.not_mem_nil
  | some c =>
    rw [hc] at hq
    have hconsulting := h.consulting
    unfold Document.ofEquation at hconsulting
    rw [hc] at hconsulting
    rcases List.mem_append.1 hq with hq | hq
    · split at hq
      · rw [List.mem_singleton.1 hq]
        exact h.driving
      · exact absurd hq List.not_mem_nil
    · split at hq
      · rw [List.mem_singleton.1 hq]
        exact hconsulting
      · exact absurd hq List.not_mem_nil

/-- Each predicate is kept for reasons that are words. -/
theorem portable_ofRequirements {required : List (String × Reason)}
    (h : ∀ q ∈ required, IsPrintableAscii q.1) :
    ∀ s ∈ ofRequirements required, (SolutionDoc.mk s.1 (s.2.map Reason.label)).Portable := by
  intro s hs
  obtain ⟨name, hname, rfl⟩ := List.mem_map.1 hs
  obtain ⟨q, hq, rfl⟩ := List.mem_map.1 (Names.mem_ofList.1 (Names.mem_sorted.1 hname))
  exact ⟨h q hq, List.forall_mem_map.2 fun reason _ => reason.isName_label⟩

end Solution

/-! ## Programs -/

namespace Program

variable {file source : String} {mode : Mode} {p : Program}

/-- Whatever is evaluated stands in a rule. -/
theorem mentions_of_ofSource (h : ofSource file source mode = .ok p) {x : String}
    (hx : x ∈ p.graph.keys ∨ x ∈ p.intensional ∨ x ∈ p.negated) : p.Mentions x := by
  rcases hx with hx | hx | hx
  · rw [graph_of_ofSource h, mem_keys_graphOf_iff] at hx
    obtain ⟨y, hedge⟩ := hx
    obtain ⟨r, hr, l, hl, rfl, -⟩ := edge_graphOf_iff.1 hedge
    exact ⟨r, hr, List.mem_cons_of_mem _ (by simpa using ⟨l, hl, rfl⟩)⟩
  · obtain ⟨r, hr, rfl⟩ := (mem_intensional_iff h).1 hx
    exact ⟨r, hr, List.mem_cons_self⟩
  · obtain ⟨r, hr, a, ha, rfl⟩ := (mem_negated_iff h).1 hx
    exact ⟨r, hr, List.mem_map_of_mem (Rule.negative_subset_atoms ha)⟩

/-- The rules of a source whose size is a length are portable. -/
theorem portable_of_ofSource (h : ofSource file source mode = .ok p)
    (hsource : IsSize source.utf8ByteSize) : ∀ r ∈ p.rules, r.Portable := by
  intro r hr
  obtain ⟨l, hl, hreads⟩ := exists_line_of_mem_rules h hr
  have hwithin := hreads.within hl
  exact
    { legible := hreads.legible
      line := ⟨hwithin.line_nonneg, Int.lt_of_le_of_lt hwithin.line_le hsource.2⟩
      arity := fun a ha => hsource.of_le (hwithin.arity_le a ha) }

theorem legible_of_mentions (h : ∀ r ∈ p.rules, r.Portable) {x : String} (hx : p.Mentions x) :
    IsPrintableAscii x := by
  obtain ⟨r, hr, hx⟩ := hx
  obtain ⟨a, ha, rfl⟩ := List.mem_map.1 hx
  exact ((h r hr).legible.atoms a ha).predicate

end Program

/-! ## Plans -/

namespace Plan

/-- The document of a plan is portable if the file name prints. -/
theorem portable_of_compile {request : Request} {plan : Plan}
    (h : (compile request).result = .ok plan) (hfile : IsPrintableAscii request.file)
    (hsource : IsSize request.source.utf8ByteSize) : (Document.ofPlan plan).Portable := by
  obtain ⟨p, strata, passes, plans, hprogram, -, -, hknown, rfl⟩ := compile_eq_ok_iff.1 h
  have hacc := Program.accepted_of_ofSource hprogram
  have hrules := Program.portable_of_ofSource hprogram hsource
  have hcount : IsSize p.rules.length := hsource.of_le (Program.length_rules_le hprogram)
  -- whatever is ordered, kept or asked for is a predicate of the rules
  have hmentioned : ∀ {x}, p.Mentions x → IsPrintableAscii x := Program.legible_of_mentions hrules
  have hmember : ∀ {x}, x ∈ p.graph.keys ∨ x ∈ p.intensional ∨ x ∈ p.negated →
      IsPrintableAscii x := fun hx => hmentioned (Program.mentions_of_ofSource hprogram hx)
  have horder : ∀ x ∈ (orderOf p).all, IsPrintableAscii x := fun x hx =>
    hmember (EvalOrder.mem_members_iff.1 (EvalOrder.all_perm.mem_iff.1 hx))
  -- rules are numbered from one, so the last number is the number of rules
  have hstrata := strata_uphold h ViewRegistry.portable_empty fun registry hregistry r i hi =>
    Compilation.ofRule_portable hacc (List.mem_of_getElem? hi) (hrules r (List.mem_of_getElem? hi))
      (hcount.of_le (List.getElem?_eq_some_iff.1 hi).1) hregistry
  have houtput : Legibles (Solution.outputs request.outputs) := by
    intro x hx
    have hcontains := Solution.unknownOutput?_eq_none_iff.1 hknown x hx
    exact hmentioned ((Program.contains_symbols_iff hprogram).1 hcontains)
  have hrequired : ∀ q ∈ Solution.requirements p plans (Solution.outputs request.outputs),
      IsPrintableAscii q.1 := by
    intro q hq
    rcases List.mem_append.1 hq with hq | hq
    · rcases List.mem_append.1 hq with hq | hq
      · obtain ⟨x, hx, rfl⟩ := List.mem_map.1 hq
        exact houtput x hx
      · obtain ⟨e, he, hq⟩ := List.mem_flatMap.1 hq
        obtain ⟨s, hs, he⟩ := List.mem_flatMap.1 he
        exact Solution.legible_ofEquation ((hstrata s hs).equations e he) q hq
    · obtain ⟨x, hx, rfl⟩ := List.mem_map.1 hq
      exact hmember (.inr (.inr hx))
  exact
    { file := hfile
      key := legible_hexDigest request.keyText
      extensional := fun x hx =>
        hmember (.inl ((Program.mem_extensional_iff hprogram).1 (Names.mem_sorted.1 hx)).1)
      intensional := fun x hx => hmember (.inr (.inl (Names.mem_sorted.1 hx)))
      negated := fun x hx => hmember (.inr (.inr (Names.mem_sorted.1 hx)))
      order := EvalOrder.portable_of_all horder
      strata := List.forall_mem_map.2 fun s hs => (hstrata s hs).portable hrules hcount horder
      solution := List.forall_mem_map.2 fun s hs => Solution.portable_ofRequirements hrequired s hs
      output := houtput }

/-- **Exported plans are read back unchanged.** Whatever source and options compile, and under any
file name of printing ASCII characters, the text of the exported document is read as that document.

Lengths are numbers of 64 bits with a sign, so every source is shorter than 2 ^ 63 bytes; line
numbers beyond that would not be read as numbers. -/
theorem parse_document_of_compile {request : Request} {plan : Plan}
    (h : (compile request).result = .ok plan) (hfile : IsPrintableAscii request.file)
    (hsource : request.source.utf8ByteSize < 9223372036854775808) :
    Document.parse? (Document.ofPlan plan).render = some (Document.ofPlan plan) := by
  have hsize : IsSize request.source.utf8ByteSize := by
    unfold IsSize
    omega
  exact Document.parse?_render (portable_of_compile h hfile hsize)

/-- Names that other readers take for truth values and numbers, under a file name in need of
quotes. -/
def quotedRequest : Request :=
  ⟨"no: 'dl' #1", "y(Y, N) :- null(Y, -3), on(Y, N, N), N > 7.", ["y"], .failFast⟩

theorem parse_document_of_compile_quoted : ∃ plan, (compile quotedRequest).result = .ok plan
    ∧ Document.parse? (Document.ofPlan plan).render = some (Document.ofPlan plan) := by
  obtain ⟨plan, hplan⟩ := compile_isOk_of_negatesLast (r := quotedRequest) (by decide +kernel)
  exact ⟨plan, hplan, parse_document_of_compile hplan (by decide) (by decide)⟩

end Plan

end RulePlan
