import Mathlib.Data.List.Basic

/-!
# RulePlan.Proofs.MarkedText — pieces of text that are told apart by a mark

A piece that does not have a mark in it ends where the mark first stands. So pieces that are each
ended by the mark can be read back one after the other, and so can pieces that are separated by it,
since the last of them is ended by a mark that is put there. No pieces and one empty piece are then
written alike, but separated pieces that are read back are never empty.
-/

namespace RulePlan

namespace Text

/-- A piece of text is what stands before the first occurrence of its end mark. -/
theorem eq_of_append_mark {mark : Char} {a b x y : List Char} (ha : mark ∉ a) (hb : mark ∉ b)
    (h : a ++ mark :: x = b ++ mark :: y) : a = b ∧ x = y := by
  induction a generalizing b with
  | nil =>
    cases b with
    | nil => exact ⟨rfl, (List.cons.inj h).2⟩
    | cons c b =>
      have hmark : mark = c := (List.cons.inj h).1
      exact absurd List.mem_cons_self (hmark ▸ hb)
  | cons d a ih =>
    cases b with
    | nil =>
      have hmark : d = mark := (List.cons.inj h).1
      exact absurd List.mem_cons_self (hmark ▸ ha)
    | cons c b =>
      obtain ⟨hhead, htail⟩ := List.cons.inj h
      obtain ⟨hpiece, hrest⟩ := ih (fun hm => ha (List.mem_cons_of_mem d hm))
        (fun hm => hb (List.mem_cons_of_mem c hm)) htail
      exact ⟨by rw [hhead, hpiece], hrest⟩

/-- Pieces of text, each with an end mark. -/
def marked (mark : Char) (pieces : List (List Char)) : List Char :=
  pieces.flatMap (· ++ [mark])

theorem marked_cons (mark : Char) (piece : List Char) (pieces : List (List Char)) :
    marked mark (piece :: pieces) = piece ++ mark :: marked mark pieces := by
  simp [marked]

/-- Pieces free of the end mark can be read back. -/
theorem eq_of_marked {mark : Char} {as bs : List (List Char)} (ha : ∀ a ∈ as, mark ∉ a)
    (hb : ∀ b ∈ bs, mark ∉ b) (h : marked mark as = marked mark bs) : as = bs := by
  induction as generalizing bs with
  | nil =>
    cases bs with
    | nil => rfl
    | cons b bs => simp [marked] at h
  | cons a as ih =>
    cases bs with
    | nil => simp [marked] at h
    | cons b bs =>
      rw [marked_cons, marked_cons] at h
      obtain ⟨hpiece, hrest⟩ :=
        eq_of_append_mark (ha a List.mem_cons_self) (hb b List.mem_cons_self) h
      rw [hpiece, ih (fun a hm => ha a (List.mem_cons_of_mem _ hm))
        (fun b hm => hb b (List.mem_cons_of_mem _ hm)) hrest]

/-- Separated texts as pieces that a mark ends; the gap is what else stands between two texts. -/
def separated (gap : List Char) : List String → List (List Char)
  | [] => [[]]
  | s :: l => s.toList :: l.map (gap ++ ·.toList)

section Separated

variable {separator : String} {mark : Char} {gap : List Char}

theorem marked_separated (hseparator : separator.toList = mark :: gap) (l : List String) :
    marked mark (separated gap l) = (separator.intercalate l).toList ++ [mark] := by
  cases l with
  | nil => rfl
  | cons s l =>
    induction l generalizing s with
    | nil => simp [separated, marked]
    | cons t l ih =>
      rw [String.intercalate_cons_cons, String.toList_append, String.toList_append, hseparator,
        List.append_assoc, ← ih t, separated, List.map_cons, marked_cons, marked_cons]
      simp [separated, marked_cons]

theorem not_mem_separated (hgap : mark ∉ gap) {l : List String} (h : ∀ s ∈ l, mark ∉ s.toList) :
    ∀ piece ∈ separated gap l, mark ∉ piece := by
  intro piece hpiece
  cases l with
  | nil =>
    rw [List.mem_singleton.1 hpiece]
    exact List.not_mem_nil
  | cons s l =>
    rcases List.mem_cons.1 hpiece with rfl | hpiece
    · exact h s List.mem_cons_self
    · obtain ⟨t, ht, rfl⟩ := List.mem_map.1 hpiece
      exact List.not_mem_append hgap (h t (List.mem_cons_of_mem s ht))

/-- Texts without the first character of their separator, none of them empty, can be read back. -/
theorem eq_of_intercalate (hseparator : separator.toList = mark :: gap) (hgap : mark ∉ gap)
    {l l' : List String} (hl : ∀ s ∈ l, s ≠ "" ∧ mark ∉ s.toList)
    (hl' : ∀ s ∈ l', s ≠ "" ∧ mark ∉ s.toList)
    (h : separator.intercalate l = separator.intercalate l') : l = l' := by
  have hmarked : marked mark (separated gap l) = marked mark (separated gap l') := by
    rw [marked_separated hseparator, marked_separated hseparator, h]
  have hpieces : separated gap l = separated gap l' :=
    eq_of_marked (not_mem_separated hgap fun s hs => (hl s hs).2)
      (not_mem_separated hgap fun s hs => (hl' s hs).2) hmarked
  have hspaced : Function.Injective fun s : String => gap ++ s.toList :=
    fun _ _ heq => String.toList_inj.1 (List.append_cancel_left heq)
  -- no pieces and one empty piece are written alike, which nonempty pieces rule out
  match l, l' with
  | [], [] => rfl
  | [], s :: l' =>
    have hempty : [] = s.toList := (List.cons.inj hpieces).1
    exact absurd (String.toList_inj.1 hempty.symm) (hl' s List.mem_cons_self).1
  | s :: l, [] =>
    have hempty : s.toList = [] := (List.cons.inj hpieces).1
    exact absurd (String.toList_inj.1 hempty) (hl s List.mem_cons_self).1
  | s :: l, t :: l' =>
    obtain ⟨hfirst, hrest⟩ := List.cons.inj hpieces
    rw [String.toList_inj.1 hfirst, hspaced.list_map hrest]

end Separated

end Text

end RulePlan
