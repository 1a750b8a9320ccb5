import Mathlib.Data.List.Basic
import Mathlib.Data.List.Induction
import RulePlan.Equation

/-!
# RulePlan.Proofs.Columns — where an equation finds its values

The two arrangements that an equation is built from, each pinned down once. The driving columns:
a variable is found at its first place in the driving atom, and every other place carries a
selection, to its constant or to the first place of its variable. The view columns: the combination
goes through the declared columns, each exactly once, and the bound separates those whose term is
fixed before the lookup from the free variables.
-/

namespace RulePlan

/-! ## Driving columns -/

namespace Equation.Columns

theorem ofArgs_append_singleton (args : List Argument) (arg : Argument) :
    ofArgs (args ++ [arg]) = (ofArgs args).add (arg, args.length) := by
  unfold ofArgs
  rw [List.zipIdx_append, List.foldl_append]
  simp

theorem find?_add_const (c : Columns) (v : Int64) (i : Nat) (x : String) :
    (c.add (.const v, i)).find? x = c.find? x := rfl

theorem find?_add_var (c : Columns) (y : String) (i : Nat) (x : String) :
    (c.add (.var y, i)).find? x = (c.find? x).or (if y = x then some i else none) := by
  cases hy : c.find? y with
  | some first =>
    have hadd : (c.add (.var y, i)).find? x = c.find? x := by simp only [add, hy]; rfl
    rw [hadd]
    by_cases hxy : y = x
    · subst hxy
      rw [hy, Option.some_or]
    · simp [hxy]
  | none =>
    have hadd : c.add (.var y, i) = { c with positions := c.positions ++ [⟨y, i⟩] } := by
      simp only [add, hy]
    rw [hadd]
    unfold find?
    rw [List.find?_append]
    cases c.positions.find? (·.name == x) with
    | some placement => simp
    | none => by_cases hxy : y = x <;> simp [hxy]

theorem idxOf?_append_singleton (args : List Argument) (arg arg' : Argument) :
    (args ++ [arg]).idxOf? arg'
      = (args.idxOf? arg').or (if arg = arg' then some args.length else none) := by
  unfold List.idxOf?
  rw [List.findIdx?_append]
  by_cases h : arg = arg' <;> simp [h]

/-- A variable is found at its first place. -/
theorem find?_ofArgs (args : List Argument) (x : String) :
    (ofArgs args).find? x = args.idxOf? (.var x) := by
  induction args using List.reverseRecOn with
  | nil => rfl
  | append_singleton args arg ih =>
    rw [ofArgs_append_singleton, idxOf?_append_singleton, ← ih]
    cases arg with
    | const v => simp [find?_add_const]
    | var y => simp [find?_add_var]

theorem find?_ofArgs_eq_none_iff {args : List Argument} {x : String} :
    (ofArgs args).find? x = none ↔ Argument.var x ∉ args := by
  rw [find?_ofArgs, List.idxOf?_eq_none_iff]

theorem getElem?_of_find?_ofArgs {args : List Argument} {x : String} {i : Nat}
    (h : (ofArgs args).find? x = some i) : args[i]? = some (.var x) := by
  rw [find?_ofArgs, List.idxOf?_eq_some_iff] at h
  obtain ⟨hi, hx, -⟩ := h
  rw [List.getElem?_eq_getElem hi, hx]

theorem term_var_of_find? {c : Columns} {x : String} {i : Nat} (h : c.find? x = some i) :
    c.term (.var x) = .column i := by
  simp only [term, h]

theorem term_var_of_find?_none {c : Columns} {x : String} (h : c.find? x = none) :
    c.term (.var x) = .argument (.var x) := by
  simp only [term, h]

/-- Only a variable that is no column stays a variable. -/
theorem term_eq_var_iff {c : Columns} {arg : Argument} {x : String} :
    c.term arg = .argument (.var x) ↔ arg = .var x ∧ c.find? x = none := by
  cases arg with
  | const v => simp [term]
  | var y =>
    cases h : c.find? y with
    | some i =>
      rw [term_var_of_find? h]
      refine iff_of_false nofun ?_
      rintro ⟨⟨rfl⟩, hnone⟩
      rw [h] at hnone
      cases hnone
    | none =>
      rw [term_var_of_find?_none h]
      constructor
      · rintro ⟨⟩
        exact ⟨rfl, h⟩
      · rintro ⟨⟨⟩, -⟩
        rfl

theorem selections_add_const (c : Columns) (v : Int64) (i : Nat) :
    (c.add (.const v, i)).selections = c.selections ++ [⟨i, .argument (.const v)⟩] := rfl

theorem selections_add_var (c : Columns) (y : String) (i : Nat) :
    (c.add (.var y, i)).selections
      = c.selections ++ ((c.find? y).map fun (first : Nat) => ⟨i, .column first⟩).toList := by
  unfold add
  cases hy : c.find? y <;> simp [hy]

/-- The selection that a place of the driving atom carries: a constant selects its place, and a
later place of a variable is selected to equal the first. -/
def selectionAt? (args : List Argument) : Argument × Nat → Option Selection
  | (.const v, i) => some ⟨i, .argument (.const v)⟩
  | (.var x, i) =>
    ((args.idxOf? (.var x)).filter (· < i)).map fun (first : Nat) => ⟨i, .column first⟩

/-- A place keeps its selection when arguments are added behind it. -/
theorem selectionAt?_append {args : List Argument} (arg : Argument) {place : Argument × Nat}
    (h : place ∈ args.zipIdx) : selectionAt? (args ++ [arg]) place = selectionAt? args place := by
  obtain ⟨arg', i⟩ := place
  cases arg' with
  | const v => rfl
  | var x =>
    have hmem : Argument.var x ∈ args := List.mem_of_getElem? (List.mk_mem_zipIdx_iff_getElem?.1 h)
    obtain ⟨first, hfirst⟩ : ∃ first, args.idxOf? (.var x) = some first := by
      rw [← Option.isSome_iff_exists, Option.isSome_iff_ne_none, Ne, List.idxOf?_eq_none_iff]
      exact not_not.2 hmem
    simp only [selectionAt?, idxOf?_append_singleton, hfirst, Option.some_or]

/-- The selections in order of their places. -/
theorem selections_ofArgs (args : List Argument) :
    (ofArgs args).selections = args.zipIdx.filterMap (selectionAt? args) := by
  induction args using List.reverseRecOn with
  | nil => rfl
  | append_singleton args arg ih =>
    have hold : args.zipIdx.filterMap (selectionAt? (args ++ [arg]))
        = (ofArgs args).selections := by
      rw [ih]
      exact List.filterMap_congr fun place hplace => selectionAt?_append arg hplace
    rw [ofArgs_append_singleton, List.zipIdx_append, List.filterMap_append, hold]
    cases arg with
    | const v => simp [selections_add_const, selectionAt?]
    | var y =>
      rw [selections_add_var, find?_ofArgs]
      cases hy : args.idxOf? (.var y) with
      | none => simp [selectionAt?, idxOf?_append_singleton, hy]
      | some first =>
        have hlt : first < args.length := (List.idxOf?_eq_some_iff.1 hy).1
        simp [selectionAt?, idxOf?_append_singleton, hy, hlt]

theorem mem_selections_of_const {args : List Argument} {i : Nat} {v : Int64}
    (h : args[i]? = some (.const v)) :
    ⟨i, .argument (.const v)⟩ ∈ (ofArgs args).selections := by
  rw [selections_ofArgs, List.mem_filterMap]
  exact ⟨(.const v, i), List.mk_mem_zipIdx_iff_getElem?.2 h, rfl⟩

theorem mem_selections_of_repeated {args : List Argument} {i first : Nat} {x : String}
    (h : args[i]? = some (.var x)) (hfirst : args.idxOf? (.var x) = some first)
    (hlt : first < i) : ⟨i, .column first⟩ ∈ (ofArgs args).selections := by
  rw [selections_ofArgs, List.mem_filterMap]
  refine ⟨(.var x, i), List.mk_mem_zipIdx_iff_getElem?.2 h, ?_⟩
  simp [selectionAt?, hfirst, hlt]

theorem selection_cases {args : List Argument} {s : Selection}
    (h : s ∈ (ofArgs args).selections) :
    (∃ v, args[s.column]? = some (.const v) ∧ s.equals = .argument (.const v)) ∨
      ∃ (x : String) (first : Nat), args[s.column]? = some (.var x)
        ∧ args[first]? = some (.var x) ∧ s.equals = .column first := by
  rw [selections_ofArgs, List.mem_filterMap] at h
  obtain ⟨⟨arg, i⟩, hplace, hs⟩ := h
  rw [List.mk_mem_zipIdx_iff_getElem?] at hplace
  cases arg with
  | const v =>
    obtain rfl := Option.some.inj hs
    exact Or.inl ⟨v, hplace, rfl⟩
  | var x =>
    obtain ⟨first, hfirst, rfl⟩ := Option.map_eq_some_iff.1 hs
    obtain ⟨hidx, -⟩ := Option.filter_eq_some_iff.1 hfirst
    rw [← find?_ofArgs] at hidx
    exact Or.inr ⟨x, first, hplace, getElem?_of_find?_ofArgs hidx, rfl⟩

end Equation.Columns

/-! ## View columns -/

namespace Arrangement

/-- Terms with their places, in view order. -/
def viewOrder (l : List (Term × Nat)) : List (Term × Nat) :=
  l.filter (·.1.isColumn) ++ l.filter (·.1.isConstant) ++ l.filter (·.1.isFree)

/-- View order neither loses nor repeats a place. -/
theorem viewOrder_perm (l : List (Term × Nat)) : (viewOrder l).Perm l := by
  induction l with
  | nil => exact List.Perm.nil
  | cons c l ih =>
    unfold viewOrder at ih ⊢
    obtain ⟨term, i⟩ := c
    match term with
    | .column j => simpa [Term.isColumn, Term.isConstant, Term.isFree] using ih
    | .argument (.const v) =>
      simp only [Term.isColumn, Term.isConstant, Term.isFree, List.filter_cons, if_true,
        Bool.false_eq_true, if_false, List.append_assoc, List.cons_append] at ih ⊢
      exact List.perm_middle.trans (ih.cons _)
    | .argument (.var x) =>
      simp only [Term.isColumn, Term.isConstant, Term.isFree, List.filter_cons, if_true,
        Bool.false_eq_true, if_false] at ih ⊢
      exact List.perm_middle.trans (ih.cons _)

theorem combination_ofTerms (terms : List Term) :
    (ofTerms terms).combination = (viewOrder terms.zipIdx).map Prod.snd := by
  simp [ofTerms, places, viewOrder]

/-- The combination goes through all declared columns. -/
theorem combination_perm (terms : List Term) :
    (ofTerms terms).combination.Perm (List.range terms.length) := by
  rw [combination_ofTerms]
  have h := (viewOrder_perm terms.zipIdx).map Prod.snd
  rwa [List.zipIdx_map_snd, ← List.range_eq_range'] at h

theorem length_combination (terms : List Term) :
    (ofTerms terms).combination.length = terms.length := by
  rw [(combination_perm terms).length_eq, List.length_range]

/-- Reading the terms at places taken from the list gives back the terms that stood there. -/
theorem zip_getElem?_eq {terms : List Term} :
    ∀ {l : List (Term × Nat)}, (∀ c ∈ l, terms[c.2]? = some c.1) →
      ((l.map Prod.snd).filterMap (terms[·]?)).zip (l.map Prod.snd) = l := by
  intro l
  induction l with
  | nil =>
    intro _
    rfl
  | cons c l ih =>
    intro h
    have hc : terms[c.2]? = some c.1 := h c List.mem_cons_self
    have hl := ih fun c' hc' => h c' (List.mem_cons_of_mem c hc')
    rw [List.map_cons, List.filterMap_cons_some hc, List.zip_cons_cons, hl]

/-- The columns of a view are the declared columns in view order. -/
theorem zip_ofTerms (terms : List Term) :
    (ofTerms terms).terms.zip (ofTerms terms).combination = viewOrder terms.zipIdx := by
  have hterms : (ofTerms terms).terms = (ofTerms terms).combination.filterMap (terms[·]?) := rfl
  rw [hterms, combination_ofTerms]
  refine zip_getElem?_eq ?_
  intro c hc
  exact List.mem_zipIdx_iff_getElem?.1 ((viewOrder_perm terms.zipIdx).mem_iff.1 hc)

theorem bound_ofTerms (terms : List Term) :
    (ofTerms terms).bound
      = (terms.zipIdx.filter (·.1.isColumn) ++ terms.zipIdx.filter (·.1.isConstant)).length := by
  simp [ofTerms, places]

/-- The columns before the bound are those whose term is fixed before the lookup. -/
theorem mem_take_bound_iff (terms : List Term) (c : Term × Nat) :
    c ∈ ((ofTerms terms).terms.zip (ofTerms terms).combination).take (ofTerms terms).bound ↔
      terms[c.2]? = some c.1 ∧ c.1.isFree = false := by
  rw [zip_ofTerms, bound_ofTerms]
  unfold viewOrder
  rw [List.take_left, List.mem_append, List.mem_filter, List.mem_filter,
    List.mem_zipIdx_iff_getElem?, ← and_or_left]
  refine and_congr_right fun _ => ?_
  match c.1 with
  | .column _ => simp [Term.isColumn, Term.isFree]
  | .argument (.const _) => simp [Term.isConstant, Term.isFree]
  | .argument (.var _) => simp [Term.isColumn, Term.isConstant, Term.isFree]

/-- The columns from the bound on are the free variables. -/
theorem mem_drop_bound_iff (terms : List Term) (c : Term × Nat) :
    c ∈ ((ofTerms terms).terms.zip (ofTerms terms).combination).drop (ofTerms terms).bound ↔
      terms[c.2]? = some c.1 ∧ c.1.isFree = true := by
  rw [zip_ofTerms, bound_ofTerms]
  unfold viewOrder
  rw [List.drop_left, List.mem_filter, List.mem_zipIdx_iff_getElem?]

end Arrangement

end RulePlan
