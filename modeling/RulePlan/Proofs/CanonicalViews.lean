import Mathlib.Data.List.Sort
import RulePlan.Proofs.Columns

/-!
# RulePlan.Proofs.CanonicalViews — arranging the columns of a view

Three passes over the declared terms collect the columns of the driving tuple, the constants and the
free variables. Every term is of exactly one of these kinds, so the passes together list each place
once, and a pass lists its places upwards. The terms in view order are therefore the three groups
one after the other, each as it was declared.

Terms in this order are arranged already. A second arrangement takes the first group from the front,
the second from the middle and the third from the end, so it changes nothing.
-/

namespace RulePlan

/-! ## Kinds of terms -/

namespace Term

/-- A column of the driving tuple is neither a constant nor free. -/
theorem kinds_of_isColumn {t : Term} (h : t.isColumn = true) :
    t.isConstant = false ∧ t.isFree = false := by
  match t with
  | .column _ => exact ⟨rfl, rfl⟩
  | .argument _ => cases h

theorem kinds_of_isConstant {t : Term} (h : t.isConstant = true) :
    t.isColumn = false ∧ t.isFree = false := by
  match t with
  | .column _ => cases h
  | .argument (.const _) => exact ⟨rfl, rfl⟩
  | .argument (.var _) => cases h

theorem kinds_of_isFree {t : Term} (h : t.isFree = true) :
    t.isColumn = false ∧ t.isConstant = false := by
  match t with
  | .column _ => cases h
  | .argument (.const _) => cases h
  | .argument (.var _) => exact ⟨rfl, rfl⟩

end Term

namespace Arrangement

/-! ## Places -/

/-- The places, in increasing order, of the terms that satisfy a test. -/
structure Lists (terms : List Term) (test : Term → Bool) (found : List Nat) : Prop where
  increasing : found.Pairwise (· < ·)
  mem_iff : ∀ i : Nat, i ∈ found ↔ ∃ t, terms[i]? = some t ∧ test t = true

theorem lists_places (terms : List Term) (test : Term → Bool) :
    Lists terms test (places test terms) where
  increasing := by
    have hplaces : (terms.zipIdx.map Prod.snd).Pairwise (· < ·) := by
      rw [List.zipIdx_map_snd]
      exact List.pairwise_lt_range'
    exact hplaces.sublist (List.filter_sublist.map Prod.snd)
  mem_iff := by
    intro i
    unfold places
    rw [List.mem_map]
    constructor
    · rintro ⟨⟨t, j⟩, hmem, rfl⟩
      obtain ⟨hplace, htest⟩ := List.mem_filter.1 hmem
      exact ⟨t, List.mk_mem_zipIdx_iff_getElem?.1 hplace, htest⟩
    · rintro ⟨t, hplace, htest⟩
      exact ⟨(t, i), List.mem_filter.2 ⟨List.mk_mem_zipIdx_iff_getElem?.2 hplace, htest⟩, rfl⟩

/-- A combination leaves every column in place iff it counts upwards from zero. -/
theorem isIdentity_iff (combination : List Nat) :
    isIdentity combination = true ↔ combination = List.range combination.length := by
  unfold isIdentity
  rw [List.all_eq_true]
  constructor
  · intro h
    refine List.ext_getElem? fun i => ?_
    cases hi : combination[i]? with
    | none => simpa using hi
    | some c =>
      have hc : c = i := eq_of_beq (h (c, i) (List.mk_mem_zipIdx_iff_getElem?.2 hi))
      have hlt := (List.getElem?_eq_some_iff.1 hi).1
      rw [List.getElem?_range hlt, hc]
  · rintro h ⟨c, i⟩ hmem
    have hi := List.mk_mem_zipIdx_iff_getElem?.1 hmem
    rw [h] at hi
    obtain ⟨hlt, heq⟩ := List.getElem?_eq_some_iff.1 hi
    rw [List.getElem_range] at heq
    exact beq_iff_eq.2 heq.symm

/-! ## Terms in view order -/

theorem map_fst_viewOrder (l : List (Term × Nat)) :
    (viewOrder l).map Prod.fst = (l.map Prod.fst).filter Term.isColumn
      ++ (l.map Prod.fst).filter Term.isConstant ++ (l.map Prod.fst).filter Term.isFree := by
  unfold viewOrder
  rw [List.filter_map, List.filter_map, List.filter_map, List.map_append, List.map_append]
  rfl

/-- The terms of an arrangement are the declared ones, in view order. -/
theorem terms_eq_map_viewOrder (terms : List Term) :
    (ofTerms terms).terms = (viewOrder terms.zipIdx).map Prod.fst := by
  have hle : (ofTerms terms).terms.length ≤ (ofTerms terms).combination.length :=
    List.length_filterMap_le _ _
  rw [← zip_ofTerms, List.map_fst_zip hle]

/-- They are the three groups, each as it was declared. -/
theorem terms_ofTerms (terms : List Term) :
    (ofTerms terms).terms = terms.filter Term.isColumn ++ terms.filter Term.isConstant
      ++ terms.filter Term.isFree := by
  rw [terms_eq_map_viewOrder, map_fst_viewOrder, List.zipIdx_map_fst]

theorem terms_perm (terms : List Term) : (ofTerms terms).terms.Perm terms := by
  have hperm := (viewOrder_perm terms.zipIdx).map Prod.fst
  rwa [List.zipIdx_map_fst, ← terms_eq_map_viewOrder] at hperm

/-- Every place of an arrangement has the term that its combination points to. -/
theorem getElem?_terms (terms : List Term) (i : Nat) :
    (ofTerms terms).terms[i]? = (ofTerms terms).combination[i]?.bind (terms[·]?) := by
  rw [terms_eq_map_viewOrder, combination_ofTerms, List.getElem?_map, List.getElem?_map]
  cases hc : (viewOrder terms.zipIdx)[i]? with
  | none => rfl
  | some c =>
    have hplace := (viewOrder_perm terms.zipIdx).mem_iff.1 (List.mem_of_getElem? hc)
    exact (List.mem_zipIdx_iff_getElem?.1 hplace).symm

/-- The bound separates the free variables from the terms before them. -/
theorem bound_eq (terms : List Term) :
    (ofTerms terms).bound
      = (terms.filter Term.isColumn ++ terms.filter Term.isConstant).length := by
  have hfilter : ∀ test : Term → Bool,
      (terms.zipIdx.filter (test ·.1)).length = (terms.filter test).length := by
    intro test
    conv_rhs => rw [← List.zipIdx_map_fst 0 terms, List.filter_map, List.length_map]
    rfl
  rw [bound_ofTerms, List.length_append, List.length_append, hfilter, hfilter]

/-! ## Arranging again -/

theorem filter_zipIdx_of_forall {test : Term → Bool} {terms : List Term} (n : Nat)
    (h : ∀ t ∈ terms, test t = true) :
    (terms.zipIdx n).filter (test ·.1) = terms.zipIdx n :=
  List.filter_eq_self.2 fun _ hc => h _ (List.fst_mem_of_mem_zipIdx hc)

theorem filter_zipIdx_of_forall_not {test : Term → Bool} {terms : List Term} (n : Nat)
    (h : ∀ t ∈ terms, test t = false) : (terms.zipIdx n).filter (test ·.1) = [] := by
  refine List.filter_eq_nil_iff.2 fun c hc => ?_
  rw [h _ (List.fst_mem_of_mem_zipIdx hc)]
  exact Bool.false_ne_true

/-- Three groups in view order stay where they are. -/
theorem viewOrder_zipIdx_append {columns constants free : List Term}
    (hcolumns : ∀ t ∈ columns, t.isColumn = true)
    (hconstants : ∀ t ∈ constants, t.isConstant = true) (hfree : ∀ t ∈ free, t.isFree = true) :
    viewOrder (columns ++ constants ++ free).zipIdx = (columns ++ constants ++ free).zipIdx := by
  -- each pass keeps its own group whole and drops the other two
  unfold viewOrder
  simp only [List.zipIdx_append, List.filter_append]
  rw [filter_zipIdx_of_forall _ hcolumns, filter_zipIdx_of_forall _ hconstants,
    filter_zipIdx_of_forall _ hfree,
    filter_zipIdx_of_forall_not _ fun t ht => (Term.kinds_of_isConstant (hconstants t ht)).1,
    filter_zipIdx_of_forall_not _ fun t ht => (Term.kinds_of_isFree (hfree t ht)).1,
    filter_zipIdx_of_forall_not _ fun t ht => (Term.kinds_of_isColumn (hcolumns t ht)).1,
    filter_zipIdx_of_forall_not _ fun t ht => (Term.kinds_of_isFree (hfree t ht)).2,
    filter_zipIdx_of_forall_not _ fun t ht => (Term.kinds_of_isColumn (hcolumns t ht)).2,
    filter_zipIdx_of_forall_not _ fun t ht => (Term.kinds_of_isConstant (hconstants t ht)).2]
  simp

theorem viewOrder_zipIdx_terms (terms : List Term) :
    viewOrder (ofTerms terms).terms.zipIdx = (ofTerms terms).terms.zipIdx := by
  rw [terms_ofTerms]
  exact viewOrder_zipIdx_append (fun _ h => (List.mem_filter.1 h).2)
    (fun _ h => (List.mem_filter.1 h).2) fun _ h => (List.mem_filter.1 h).2

/-- Terms in view order are arranged as they stand. -/
theorem ofTerms_terms (terms : List Term) :
    ofTerms (ofTerms terms).terms
      = ⟨(ofTerms terms).terms, List.range terms.length, (ofTerms terms).bound⟩ := by
  have hperm := terms_perm terms
  have hterms : (ofTerms (ofTerms terms).terms).terms = (ofTerms terms).terms := by
    rw [terms_eq_map_viewOrder, viewOrder_zipIdx_terms, List.zipIdx_map_fst]
  have hcombination : (ofTerms (ofTerms terms).terms).combination = List.range terms.length := by
    rw [combination_ofTerms, viewOrder_zipIdx_terms, List.zipIdx_map_snd, hperm.length_eq,
      List.range_eq_range']
  have hbound : (ofTerms (ofTerms terms).terms).bound = (ofTerms terms).bound := by
    rw [bound_eq, bound_eq, List.length_append, List.length_append, (hperm.filter _).length_eq,
      (hperm.filter _).length_eq]
  generalize ofTerms (ofTerms terms).terms = again at hterms hcombination hbound
  cases again
  rw [← hterms, ← hcombination, ← hbound]

/-- What it is for terms to be in view order. The combination goes through all declared places, and
each term is the one that it points to. First come the columns, then the constants, up to the bound,
and then the free variables; each group has its places in increasing order. -/
structure Canonical (a : Arrangement) (terms : List Term) : Prop where
  combination : a.combination.Perm (List.range terms.length)
  points : ∀ i : Nat, a.terms[i]? = a.combination[i]?.bind (terms[·]?)
  groups : ∃ columns constants free, a.combination = columns ++ constants ++ free
    ∧ Lists terms Term.isColumn columns ∧ Lists terms Term.isConstant constants
    ∧ Lists terms Term.isFree free ∧ a.bound = (columns ++ constants).length
  fixed : a.terms.take a.bound = terms.filter Term.isColumn ++ terms.filter Term.isConstant
  free : a.terms.drop a.bound = terms.filter Term.isFree

/-- **The columns of a view have a canonical order.** Every list of terms is brought into view
order, and doing so again changes nothing: the combination leaves every column in place, and terms
and bound stay as they are. -/
theorem ofTerms_canonical (terms : List Term) :
    (ofTerms terms).Canonical terms
      ∧ isIdentity (ofTerms (ofTerms terms).terms).combination = true
      ∧ ofTerms (ofTerms terms).terms
        = ⟨(ofTerms terms).terms, List.range terms.length, (ofTerms terms).bound⟩ := by
  have hagain := ofTerms_terms terms
  refine ⟨?_, ?_, hagain⟩
  · refine
      { combination := combination_perm terms
        points := getElem?_terms terms
        groups := ?_
        fixed := ?_
        free := ?_ }
    · exact ⟨_, _, _, rfl, lists_places terms _, lists_places terms _, lists_places terms _, rfl⟩
    · rw [terms_ofTerms, bound_eq, List.take_left]
    · rw [terms_ofTerms, bound_eq, List.drop_left]
  · rw [isIdentity_iff, hagain, List.length_range]

/-- A free variable, a column, a constant and a column again. -/
example : ofTerms [.argument (.var "Y"), .column 2, .argument (.const 3), .column 0]
    = ⟨[.column 2, .column 0, .argument (.const 3), .argument (.var "Y")], [1, 3, 2, 0], 3⟩ := by
  decide

end Arrangement

end RulePlan
