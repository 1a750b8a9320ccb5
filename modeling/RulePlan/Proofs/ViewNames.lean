import RulePlan.Proofs.ViewShapes

/-!
# RulePlan.Proofs.ViewNames — names and aliases of views, over any sequence of calls

A registry is asked for the views of shapes and for aliases of views it has handed out. Whatever the
order of these calls, a shape has one view for ever, the views of a predicate are numbered without
gaps, and aliases and their views determine each other. An alias may be taken, since predicates can
be called like anything; then numbered spellings are tried in turn. They are all different, so the
search ends after at most as many failures as there are aliases.

A first call for an alias of a view has to bring an argument for each of its columns. Without one it
is refused and changes nothing. Later calls may bring anything.
-/

namespace RulePlan

namespace ViewRegistry

/-! ## The search for a free spelling -/

/-- The spellings of an alias in the order in which they are tried: the plain one, then the
numbered ones. -/
def spelling (base : String) (rule : Int) : Nat → String
  | 0 => base
  | n + 1 => variant base rule n

theorem variant_injective (base : String) (rule : Int) :
    Function.Injective (variant base rule) := by
  have hlong : ∀ n, variant base rule 0 ≠ variant base rule (n + 1) := by
    intro n h
    have hlength := congrArg (fun s : String => s.toList.length) h
    simp [variant] at hlength
  intro m n h
  match m, n with
  | 0, 0 => rfl
  | 0, n + 1 => exact absurd h (hlong n)
  | m + 1, 0 => exact absurd h.symm (hlong m)
  | m + 1, n + 1 =>
    have hdigits : Text.Decimal.ofNat (m + 2) = Text.Decimal.ofNat (n + 2) :=
      (String.append_right_inj _).1 h
    have hlist := congrArg String.toList hdigits
    rw [Grammar.toList_ofNat, Grammar.toList_ofNat] at hlist
    have hnumber := Text.Decimal.eq_of_digits hlist
    omega

/-- What a search with a number of tries finds: all spellings before it are taken, and it is free
unless the tries are used up. -/
theorem freeVariant_cases (taken : List String) (base : String) (rule : Int) (tries n : Nat) :
    ∃ m, freeVariant taken base rule tries n = variant base rule (n + m)
      ∧ (∀ j < m, variant base rule (n + j) ∈ taken)
      ∧ (variant base rule (n + m) ∉ taken ∨ m = tries) := by
  induction tries generalizing n with
  | zero => exact ⟨0, rfl, nofun, .inr rfl⟩
  | succ tries ih =>
    unfold freeVariant
    split
    case isFalse hfree => exact ⟨0, rfl, nofun, .inl hfree⟩
    case isTrue htaken =>
      obtain ⟨m, hfound, hbefore, hend⟩ := ih (n + 1)
      have hshift : ∀ j, n + 1 + j = n + (j + 1) := fun j => by omega
      simp only [hshift] at hfound hbefore hend
      refine ⟨m + 1, hfound, ?_, hend.imp_right (congrArg (· + 1))⟩
      intro j hj
      cases j with
      | zero => exact htaken
      | succ j => exact hbefore j (by omega)

/-- Different names that are all taken are at most as many as there are taken names. -/
theorem le_length_of_taken {taken : List String} {name : Nat → String}
    (hname : Function.Injective name) {k : Nat} (h : ∀ j < k, name j ∈ taken) :
    k ≤ taken.length := by
  have hnodup : ((List.range k).map name).Nodup := List.nodup_range.map hname
  have hsubset : (List.range k).map name ⊆ taken := by
    intro x hx
    obtain ⟨j, hj, rfl⟩ := List.mem_map.1 hx
    exact h j (List.mem_range.1 hj)
  have hlength := (hnodup.subperm hsubset).length_le
  rwa [List.length_map, List.length_range] at hlength

/-- With as many tries as there are taken names, the search finds the first free spelling. -/
theorem exists_freeVariant (taken : List String) (base : String) (rule : Int) :
    ∃ n, freeVariant taken base rule taken.length 0 = variant base rule n
      ∧ variant base rule n ∉ taken ∧ ∀ m < n, variant base rule m ∈ taken := by
  obtain ⟨n, hfound, hbefore, hend⟩ := freeVariant_cases taken base rule taken.length 0
  simp only [Nat.zero_add] at hfound hbefore hend
  refine ⟨n, hfound, ?_, hbefore⟩
  rcases hend with hfree | rfl
  · exact hfree
  · intro htaken
    have hall : ∀ j < taken.length + 1, variant base rule j ∈ taken := by
      intro j hj
      rcases Nat.lt_succ_iff_lt_or_eq.1 hj with hj | rfl
      · exact hbefore j hj
      · exact htaken
    have hle := le_length_of_taken (variant_injective base rule) hall
    omega

/-- A name is the first spelling that is not taken. -/
def FirstFree (taken : List String) (base : String) (rule : Int) (name : String) : Prop :=
  ∃ n, name = spelling base rule n ∧ name ∉ taken ∧ ∀ m < n, spelling base rule m ∈ taken

/-- A view has its alias already, or gets the first spelling that is free if there is a text to
spell. -/
theorem assignAlias_cases (r : ViewRegistry) (v : View) (args : List Argument) (rule : Int) :
    (∃ known, (known, v.name) ∈ r.aliases ∧ r.assignAlias v args rule = (known, r, []))
      ∨ (∀ e ∈ r.aliases, e.2 ≠ v.name)
        ∧ ((aliasText? v args = none ∧ r.assignAlias v args rule = ("", r, []))
          ∨ ∃ base chosen notices, aliasText? v args = some base
            ∧ FirstFree (r.aliases.map Prod.fst) base rule chosen
            ∧ r.assignAlias v args rule
              = (chosen, { r with aliases := r.aliases ++ [(chosen, v.name)] }, notices)) := by
  unfold assignAlias
  split
  case h_1 known owner hfind =>
    obtain rfl : owner = v.name := by simpa using List.find?_some hfind
    exact .inl ⟨known, List.mem_of_find?_eq_some hfind, rfl⟩
  case h_2 hnone =>
    refine .inr ⟨fun e he => by simpa using List.find?_eq_none.1 hnone e he, ?_⟩
    split
    case h_1 htext => exact .inl ⟨htext, rfl⟩
    case h_2 base htext =>
      right
      dsimp only
      split
      case isFalse hfree => exact ⟨base, _, _, htext, ⟨0, rfl, hfree, nofun⟩, rfl⟩
      case isTrue htaken =>
        obtain ⟨n, hfound, hfree, hbefore⟩ :=
          exists_freeVariant (r.aliases.map Prod.fst) base rule
        rw [hfound]
        refine ⟨base, _, _, htext, ⟨n + 1, rfl, hfree, ?_⟩, rfl⟩
        intro m hm
        cases m with
        | zero => exact htaken
        | succ m => exact hbefore m (by omega)

/-- A call leaves the registry as it is, or adds a spelling of its text. -/
theorem registry_assignAlias (r : ViewRegistry) (v : View) (args : List Argument) (rule : Int) :
    (r.assignAlias v args rule).2.1 = r
      ∨ ∃ base chosen, aliasText? v args = some base
        ∧ FirstFree (r.aliases.map Prod.fst) base rule chosen
        ∧ (r.assignAlias v args rule).2.1
          = { r with aliases := r.aliases ++ [(chosen, v.name)] } := by
  rcases assignAlias_cases r v args rule with ⟨known, -, heq⟩
    | ⟨-, ⟨-, heq⟩ | ⟨base, chosen, notices, hbase, hchosen, heq⟩⟩
  · exact .inl (by rw [heq])
  · exact .inl (by rw [heq])
  · exact .inr ⟨base, chosen, hbase, hchosen, by rw [heq]⟩

theorem assignAlias_of_refused (r : ViewRegistry) {v : View} {args : List Argument}
    (h : aliasText? v args = none) (rule : Int) : (r.assignAlias v args rule).2.1 = r := by
  rcases registry_assignAlias r v args rule with heq | ⟨base, chosen, hbase, -⟩
  · exact heq
  · exact nomatch h.symm.trans hbase

/-! ## Arguments in view order -/

theorem mapM_eq_some_iff {α β : Type} {f : α → Option β} {l : List α} {values : List β} :
    l.mapM f = some values ↔ l.map f = values.map some := by
  induction l generalizing values with
  | nil => cases values <;> simp
  | cons x l ih =>
    cases values with
    | nil => simp [Option.bind_eq_some_iff]
    | cons y values => simp [Option.bind_eq_some_iff, ih]

/-- A combination of all columns takes all arguments, in some order. -/
theorem exists_arranged {combination : List Int} {args : List Argument}
    (h : combination.Perm ((List.range args.length).map Int.ofNat)) :
    ∃ arranged, combination.mapM (argument? args) = some arranged ∧ arranged.Perm args := by
  have hplace : ∀ i : Nat, argument? args (Int.ofNat i) = args[i]? := fun i =>
    if_neg (not_lt.2 (Int.natCast_nonneg i))
  have hall : ((List.range args.length).map Int.ofNat).filterMap (argument? args) = args := by
    conv_rhs => rw [← List.zipIdx_map_fst 0 args, ← List.filterMap_eq_map]
    rw [List.filterMap_map, List.range_eq_range', ← List.zipIdx_map_snd 0 args,
      List.filterMap_map]
    refine List.filterMap_congr fun q hq => ?_
    exact (hplace q.2).trans (List.mem_zipIdx_iff_getElem?.1 hq)
  refine ⟨combination.filterMap (argument? args), mapM_eq_some_iff.2 ?_, ?_⟩
  · rw [List.map_filterMap_some_eq_filter_map_isSome]
    refine (List.filter_eq_self.2 ?_).symm
    intro found hfound
    obtain ⟨place, hmem, rfl⟩ := List.mem_map.1 hfound
    obtain ⟨i, hi, rfl⟩ := List.mem_map.1 (h.mem_iff.1 hmem)
    rw [hplace, List.getElem?_eq_getElem (List.mem_range.1 hi)]
    rfl
  · conv_rhs => rw [← hall]
    exact h.filterMap _

/-! ## Sessions -/

/-- The registries that sequences of calls lead to, with the answers so far: the view that each
shape was resolved to, and the alias that was given for each view. Aliases are asked for views that
were handed out, with any arguments; a call has no answer if it is refused. -/
inductive Session : List (Shape × View) → List (View × String) → ViewRegistry → Prop
  | start : Session [] [] .empty
  | resolve {resolved : List (Shape × View)} {aliased : List (View × String)} {r : ViewRegistry}
      (before : Session resolved aliased r) (predicate : String) (combination : List Int)
      (bound : Nat) :
      Session
        (resolved ++
          [((predicate, combination, bound), (r.resolve predicate combination bound).1)])
        aliased (r.resolve predicate combination bound).2.1
  | assignAlias {resolved : List (Shape × View)} {aliased : List (View × String)}
      {r : ViewRegistry} (before : Session resolved aliased r) {v : View}
      (hv : v ∈ resolved.map Prod.snd) (args : List Argument)
      (hargs : (aliasText? v args).isSome ∨ ∃ name, (v, name) ∈ aliased) (rule : Int) :
      Session resolved (aliased ++ [(v, (r.assignAlias v args rule).1)])
        (r.assignAlias v args rule).2.1
  | refused {resolved : List (Shape × View)} {aliased : List (View × String)}
      {r : ViewRegistry} (before : Session resolved aliased r) {v : View}
      (hv : v ∈ resolved.map Prod.snd) (args : List Argument)
      (hargs : aliasText? v args = none) (hnone : ∀ name, (v, name) ∉ aliased) (rule : Int) :
      Session resolved aliased (r.assignAlias v args rule).2.1

/-- The views of every predicate are numbered from one without gaps, in the order of the
registry. -/
def Numbered (r : ViewRegistry) : Prop :=
  ∀ predicate, (r.ofPredicate predicate).map View.name
    = (List.range' 1 (r.ofPredicate predicate).length).map (View.nameOf predicate)

/-- What every call keeps: the views are those handed out, in order of first request, and the table
of aliases holds those handed out, each for one view and each view once. -/
structure Kept (resolved : List (Shape × View)) (aliased : List (View × String))
    (r : ViewRegistry) : Prop where
  tidy : r.Tidy
  numbered : r.Numbered
  minted : r.views = (resolved.map Prod.snd).eraseDups
  shaped : ∀ q ∈ resolved, q.2.shape = q.1
  owned : ∀ q ∈ aliased, q.1 ∈ r.views
  aliases : ∀ name owner, (name, owner) ∈ r.aliases ↔ ∃ v, (v, name) ∈ aliased ∧ v.name = owner
  single : ∀ e ∈ r.aliases, ∀ e' ∈ r.aliases, e.1 = e'.1 ↔ e.2 = e'.2

theorem Numbered.mint {r : ViewRegistry} (h : r.Numbered) (predicate : String)
    (combination : List Int) (bound : Nat) :
    ({ r with views := r.views ++ [r.fresh predicate combination bound] } :
      ViewRegistry).Numbered := by
  intro other
  unfold ofPredicate
  rw [List.filter_append]
  by_cases hother : predicate = other
  · subst hother
    have hnew : [r.fresh predicate combination bound].filter (·.predicate == predicate)
        = [r.fresh predicate combination bound] := by
      simp [fresh]
    rw [hnew, List.map_append, List.length_append, List.length_singleton, List.range'_concat,
      List.map_append]
    refine congrArg₂ (· ++ ·) (h predicate) ?_
    rw [List.map_singleton, List.map_singleton, Nat.one_mul, Nat.add_comm 1]
    rfl
  · have hnone : [r.fresh predicate combination bound].filter (·.predicate == other) = [] := by
      simpa [fresh] using hother
    rw [hnone, List.append_nil]
    exact h other

section Calls

variable {resolved : List (Shape × View)} {aliased : List (View × String)} {r : ViewRegistry}

theorem Kept.mem_views_of_resolved (h : Kept resolved aliased r) {q : Shape × View}
    (hq : q ∈ resolved) : q.2 ∈ r.views := by
  rw [h.minted, List.mem_eraseDups]
  exact List.mem_map.2 ⟨q, hq, rfl⟩

theorem Kept.resolve (h : Kept resolved aliased r) (predicate : String) (combination : List Int)
    (bound : Nat) :
    Kept
      (resolved ++ [((predicate, combination, bound), (r.resolve predicate combination bound).1)])
      aliased (r.resolve predicate combination bound).2.1 := by
  have hold : ∀ v, (∀ w ∈ r.views, w.shape ≠ v.shape) → v ∉ resolved.map Prod.snd := by
    intro v hnew hv
    obtain ⟨q, hq, rfl⟩ := List.mem_map.1 hv
    exact hnew q.2 (h.mem_views_of_resolved hq) rfl
  rcases resolve_cases r predicate combination bound with ⟨v, hv, hshape, heq⟩ | ⟨hnew, heq⟩
  · rw [heq]
    have hknown : v ∈ resolved.map Prod.snd := by
      rw [h.minted, List.mem_eraseDups] at hv
      exact hv
    refine { h with minted := ?_, shaped := ?_ }
    · rw [List.map_append, List.map_singleton, List.eraseDups_append, ← h.minted]
      simp [List.removeAll, hknown]
    · intro q hq
      rcases List.mem_append.1 hq with hq | hq
      · exact h.shaped q hq
      · rw [List.mem_singleton.1 hq]
        exact hshape
  · rw [heq]
    have hfresh := hold (r.fresh predicate combination bound) hnew
    refine
      { h with
        tidy := h.tidy.mint hnew
        numbered := h.numbered.mint predicate combination bound
        minted := ?_
        shaped := ?_
        owned := fun q hq => List.mem_append_left _ (h.owned q hq) }
    · rw [List.map_append, List.map_singleton, List.eraseDups_append, ← h.minted]
      simp [List.removeAll, hfresh, List.eraseDups_cons]
    · intro q hq
      rcases List.mem_append.1 hq with hq | hq
      · exact h.shaped q hq
      · rw [List.mem_singleton.1 hq]
        rfl

theorem Kept.owned_append (h : Kept resolved aliased r) {v : View} (hv : v ∈ r.views)
    (name : String) : ∀ q ∈ aliased ++ [(v, name)], q.1 ∈ r.views := by
  intro q hq
  rcases List.mem_append.1 hq with hq | hq
  · exact h.owned q hq
  · rw [List.mem_singleton.1 hq]
    exact hv

/-- Handing out an alias that the view has already adds nothing. -/
theorem Kept.known_alias (h : Kept resolved aliased r) {v : View} (hv : v ∈ r.views)
    {known : String} (hknown : (known, v.name) ∈ r.aliases) :
    Kept resolved (aliased ++ [(v, known)]) r := by
  refine { h with owned := h.owned_append hv known, aliases := ?_ }
  intro name owner
  rw [h.aliases]
  refine exists_congr fun w => and_congr_left fun hw => ?_
  rw [List.mem_append, List.mem_singleton, Prod.mk.injEq]
  constructor
  · exact Or.inl
  · rintro (hold | ⟨rfl, rfl⟩)
    · exact hold
    · -- the alias was given to a view of this name, and that is this view
      obtain ⟨u, hu, hname⟩ := (h.aliases name w.name).1 hknown
      rwa [h.tidy.names u (h.owned _ hu) w hv hname] at hu

/-- A new alias for a view that has none keeps aliases and views one to one. -/
theorem Kept.new_alias (h : Kept resolved aliased r) {v : View} (hv : v ∈ r.views)
    {chosen : String} (hchosen : ∀ e ∈ r.aliases, e.1 ≠ chosen)
    (hnone : ∀ e ∈ r.aliases, e.2 ≠ v.name) :
    Kept resolved (aliased ++ [(v, chosen)])
      { r with aliases := r.aliases ++ [(chosen, v.name)] } := by
  refine
    { tidy := h.tidy.of_views_eq rfl
      numbered := h.numbered
      minted := h.minted
      shaped := h.shaped
      owned := h.owned_append hv chosen
      aliases := ?_
      single := ?_ }
  · intro name owner
    simp only [List.mem_append, List.mem_singleton, Prod.mk.injEq, h.aliases, or_and_right,
      exists_or]
    refine or_congr_right ?_
    constructor
    · rintro ⟨rfl, rfl⟩
      exact ⟨v, ⟨rfl, rfl⟩, rfl⟩
    · rintro ⟨w, ⟨rfl, rfl⟩, rfl⟩
      exact ⟨rfl, rfl⟩
  · intro e he e' he'
    rcases List.mem_append.1 he with he | he <;> rcases List.mem_append.1 he' with he' | he'
    · exact h.single e he e' he'
    · rw [List.mem_singleton.1 he']
      exact iff_of_false (hchosen e he) (hnone e he)
    · rw [List.mem_singleton.1 he]
      exact iff_of_false (hchosen e' he').symm (hnone e' he').symm
    · rw [List.mem_singleton.1 he, List.mem_singleton.1 he']
      exact iff_of_true rfl rfl

theorem Kept.assignAlias (h : Kept resolved aliased r) {v : View} (hv : v ∈ r.views)
    {args : List Argument} (hargs : (aliasText? v args).isSome ∨ ∃ name, (v, name) ∈ aliased)
    (rule : Int) :
    Kept resolved (aliased ++ [(v, (r.assignAlias v args rule).1)])
      (r.assignAlias v args rule).2.1 := by
  rcases assignAlias_cases r v args rule with ⟨known, hknown, heq⟩
    | ⟨hnone, ⟨htext, -⟩ | ⟨base, chosen, notices, -, ⟨-, -, hunused, -⟩, heq⟩⟩
  · rw [heq]
    exact h.known_alias hv hknown
  · -- a call without a text has an answer only if it is not the first
    rcases hargs with hargs | ⟨name, hname⟩
    · rw [htext] at hargs
      cases hargs
    · exact absurd rfl (hnone _ ((h.aliases name v.name).2 ⟨v, hname, rfl⟩))
  · rw [heq]
    refine h.new_alias hv (fun e he hchosen => ?_) hnone
    exact hunused (List.mem_map.2 ⟨e, he, hchosen⟩)

/-- Every sequence of calls keeps the registry in order. -/
theorem Session.kept (h : Session resolved aliased r) : Kept resolved aliased r := by
  induction h with
  | start => exact ⟨tidy_empty, fun _ => rfl, rfl, nofun, nofun, by simp [empty], nofun⟩
  | resolve _ predicate combination bound ih => exact ih.resolve predicate combination bound
  | assignAlias _ hv args hargs rule ih =>
    obtain ⟨q, hq, rfl⟩ := List.mem_map.1 hv
    exact ih.assignAlias (ih.mem_views_of_resolved hq) hargs rule
  | refused _ _ args hargs _ rule ih =>
    rw [assignAlias_of_refused _ hargs]
    exact ih

theorem Tidy.lookup_name {r : ViewRegistry} (h : r.Tidy) {v : View} (hv : v ∈ r.views) :
    r.lookup v.name = some v := by
  obtain ⟨w, hw⟩ := exists_lookup hv
  obtain ⟨hmem, hname⟩ := mem_of_lookup hw
  rw [hw, h.names w hmem v hv hname]

/-! ## What the answers say -/

/-- Answers and registry agree: names stand for shapes, lookups find what was handed out, numbers
have no gaps, and aliases stand for views. -/
structure Coherent (resolved : List (Shape × View)) (aliased : List (View × String))
    (r : ViewRegistry) : Prop where
  name_iff_shape : ∀ q ∈ resolved, ∀ q' ∈ resolved, q.2.name = q'.2.name ↔ q.1 = q'.1
  lookup_resolved : ∀ q ∈ resolved, r.lookup q.2.name = some q.2 ∧ q.2.shape = q.1
  minting_order : r.views = (resolved.map Prod.snd).eraseDups
  numbered : ∀ predicate, (r.ofPredicate predicate).map View.name
    = (List.range' 1 (r.ofPredicate predicate).length).map (View.nameOf predicate)
  size_eq : r.size = (resolved.map Prod.fst).toFinset.card
  alias_iff_view : ∀ q ∈ aliased, ∀ q' ∈ aliased, q.2 = q'.2 ↔ q.1 = q'.1
  mem_aliases_iff : ∀ name owner,
    (name, owner) ∈ r.aliases ↔ ∃ v, (v, name) ∈ aliased ∧ v.name = owner
  first_free : ∀ v ∈ r.views, (∀ name, (v, name) ∉ aliased) → ∀ args rule base,
    aliasText? v args = some base →
      FirstFree (aliased.map Prod.snd) base rule (r.assignAlias v args rule).1

/-- A registry has as many names as there are different ones. -/
theorem size_eq_card (r : ViewRegistry) : r.size = (r.views.map View.name).toFinset.card := by
  rw [size, ← List.toFinset_card_of_nodup (Layering.nodup_eraseDups _)]
  congr 1
  ext name
  rw [List.mem_toFinset, List.mem_toFinset, List.mem_eraseDups]

theorem Kept.size_eq (h : Kept resolved aliased r) :
    r.size = (resolved.map Prod.fst).toFinset.card := by
  have hnodup : r.views.Nodup := by
    rw [h.minted]
    exact Layering.nodup_eraseDups _
  have hshapes : (resolved.map Prod.fst).toFinset = (r.views.map View.shape).toFinset := by
    ext shape
    rw [h.minted]
    simp only [List.mem_toFinset, List.mem_map, List.mem_eraseDups]
    constructor
    · rintro ⟨q, hq, rfl⟩
      exact ⟨q.2, ⟨q, hq, rfl⟩, h.shaped q hq⟩
    · rintro ⟨_, ⟨q, hq, rfl⟩, rfl⟩
      exact ⟨q, hq, (h.shaped q hq).symm⟩
  have hinj : ∀ v ∈ r.views, ∀ w ∈ r.views, v.shape = w.shape → v = w := h.tidy.shapes
  have hnames : (r.views.map View.name).Nodup := hnodup.map_on h.tidy.names
  rw [hshapes, size_eq_card, List.toFinset_card_of_nodup (hnodup.map_on hinj),
    List.toFinset_card_of_nodup hnames, List.length_map, List.length_map]

theorem Kept.alias_iff_view (h : Kept resolved aliased r) {q q' : View × String}
    (hq : q ∈ aliased) (hq' : q' ∈ aliased) : q.2 = q'.2 ↔ q.1 = q'.1 := by
  have hsingle := h.single (q.2, q.1.name) ((h.aliases _ _).2 ⟨q.1, hq, rfl⟩)
    (q'.2, q'.1.name) ((h.aliases _ _).2 ⟨q'.1, hq', rfl⟩)
  refine hsingle.trans ⟨?_, congrArg View.name⟩
  exact h.tidy.names q.1 (h.owned q hq) q'.1 (h.owned q' hq')

/-- **Names and aliases identify views.** After any sequence of calls, two shapes were resolved to
views of the same name iff they are the same shape, and the registry still finds each of these views
under its name. The views of a predicate are numbered from one without gaps in order of minting,
and there are as many names as shapes. Two aliases handed out are equal iff they were handed out for
the same view, whatever arguments and rule came with it; and a view without an alias gets the first
spelling that was not handed out, which the search always reaches. -/
theorem coherent_of_session (h : Session resolved aliased r) : Coherent resolved aliased r := by
  have hkept := h.kept
  have hviews : ∀ q ∈ resolved, q.2 ∈ r.views := fun q hq => hkept.mem_views_of_resolved hq
  refine
    { name_iff_shape := ?_
      lookup_resolved := fun q hq => ⟨hkept.tidy.lookup_name (hviews q hq), hkept.shaped q hq⟩
      minting_order := hkept.minted
      numbered := hkept.numbered
      size_eq := hkept.size_eq
      alias_iff_view := fun q hq q' hq' => hkept.alias_iff_view hq hq'
      mem_aliases_iff := hkept.aliases
      first_free := ?_ }
  · intro q hq q' hq'
    rw [← hkept.shaped q hq, ← hkept.shaped q' hq']
    constructor
    · intro hname
      rw [hkept.tidy.names q.2 (hviews q hq) q'.2 (hviews q' hq') hname]
    · intro hshape
      rw [hkept.tidy.shapes q.2 (hviews q hq) q'.2 (hviews q' hq') hshape]
  · intro v hv hunasked args rule base htext
    have htaken : ∀ name, name ∈ r.aliases.map Prod.fst ↔ name ∈ aliased.map Prod.snd := by
      intro name
      constructor
      · intro hname
        obtain ⟨e, he, rfl⟩ := List.mem_map.1 hname
        obtain ⟨w, hw, -⟩ := (hkept.aliases e.1 e.2).1 he
        exact List.mem_map.2 ⟨(w, e.1), hw, rfl⟩
      · intro hname
        obtain ⟨q, hq, rfl⟩ := List.mem_map.1 hname
        exact List.mem_map.2 ⟨(q.2, q.1.name), (hkept.aliases _ _).2 ⟨q.1, hq, rfl⟩, rfl⟩
    rcases assignAlias_cases r v args rule with ⟨known, hknown, -⟩
      | ⟨-, ⟨hrefused, -⟩ | ⟨text, chosen, notices, hsome, ⟨n, hspelling, hfree, hbefore⟩, heq⟩⟩
    · obtain ⟨w, hw, hname⟩ := (hkept.aliases known v.name).1 hknown
      rw [hkept.tidy.names w (hkept.owned _ hw) v hv hname] at hw
      exact absurd hw (hunasked known)
    · exact nomatch hrefused.symm.trans htext
    · obtain rfl : text = base := Option.some.inj (hsome.symm.trans htext)
      rw [heq]
      refine ⟨n, hspelling, fun htake => hfree ((htaken _).2 htake), ?_⟩
      exact fun m hm => (htaken _).1 (hbefore m hm)

end Calls

/-- Three views whose plain aliases are the same text, one of them over another predicate. -/
theorem coherent_of_clashing_aliases : ∃ resolved aliased r, Session resolved aliased r
    ∧ resolved.map (·.2.name) = ["q_view_1", "q_view_2", "q_x_view_1"]
    ∧ aliased.map Prod.snd = ["q_x_y", "q_x_y_r2", "q_x_y_r2_2"]
    ∧ Coherent resolved aliased r := by
  have hfirst := (Session.start.resolve "q" [0, 1] 1).assignAlias
    (List.mem_map.2 ⟨_, List.mem_cons_self, rfl⟩) [.var "X", .var "Y"] (.inl (by decide +kernel)) 1
  have hsecond := (hfirst.resolve "q" [0, 1] 0).assignAlias
    (List.mem_map.2 ⟨_, List.mem_append_right _ List.mem_cons_self, rfl⟩) [.var "X", .var "Y"]
    (.inl (by decide +kernel)) 2
  have hthird := (hsecond.resolve "q_x" [0] 0).assignAlias
    (List.mem_map.2 ⟨_, List.mem_append_right _ List.mem_cons_self, rfl⟩) [.var "Y"]
    (.inl (by decide +kernel)) 2
  exact ⟨_, _, _, hthird, by decide +kernel, by decide +kernel, coherent_of_session hthird⟩

end ViewRegistry

end RulePlan
