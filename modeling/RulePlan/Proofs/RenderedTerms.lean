import RulePlan.Equation
import RulePlan.Proofs.MarkedText
import RulePlan.Proofs.RenderedRule

/-!
# RulePlan.Proofs.RenderedTerms — terms are recovered from their one-line forms

A term is written as a dollar sign and a column, as a number, or as a variable. What it starts with
tells which: names start with a letter or an underscore, and numbers with a digit or a minus sign.
No term has blanks, commas or parentheses in it, so the separators of selections, argument lists and
negated atoms are found again, and everything between them is a term.
-/

namespace RulePlan

open Grammar Token

/-! ## Numbers and names -/

namespace Text.Decimal

theorem toList_ofInt (i : Int) :
    (ofInt i).toList = if i < 0 then '-' :: digits i.natAbs else digits i.natAbs := by
  unfold ofInt
  split
  · exact String.toList_ofList
  · exact toList_ofNat _

theorem mem_ofInt {i : Int} {c : Char} (h : c ∈ (ofInt i).toList) :
    c = '-' ∨ isDigit c = true := by
  rw [toList_ofInt] at h
  split at h
  · exact (List.mem_cons.1 h).imp_right (isDigit_of_mem_digits c)
  · exact .inr (isDigit_of_mem_digits c h)

theorem ofInt_ne_nil (i : Int) : (ofInt i).toList ≠ [] := by
  rw [toList_ofInt]
  split
  · exact List.cons_ne_nil _ _
  · exact Text.Decimal.digits_ne_nil _

theorem ofInt_injective : Function.Injective ofInt := by
  have hminus : ∀ (m : Nat) (cs : List Char), '-' :: cs ≠ digits m := by
    intro m cs h
    exact absurd (isDigit_of_mem_digits '-' (h ▸ List.mem_cons_self)) (by decide)
  intro i j h
  have hlist := congrArg String.toList h
  rw [toList_ofInt, toList_ofInt] at hlist
  split at hlist
  · split at hlist
    · have habs := eq_of_digits (List.cons.inj hlist).2
      omega
    · exact absurd hlist (hminus _ _)
  · split at hlist
    · exact absurd hlist.symm (hminus _ _)
    · have habs := eq_of_digits hlist
      omega

theorem ofInt64_injective : Function.Injective ofInt64 :=
  fun _ _ h => Int64.toInt_inj.1 (ofInt_injective h)

end Text.Decimal

/-- The token of a name is spelled like a name. -/
theorem Token.Lexical.isName {x : String} (h : Lexical (ident x)) : IsName x.toList := by
  have hmunch : munch (x.toList ++ []) = some (Kind.ident, x.toList, []) :=
    h [] (by simp [Delimited])
  -- fixed spellings and numbers make tokens of other kinds
  rcases munch_cases hmunch with hmem | ⟨hkind, -⟩ | ⟨c, word, hx, -, hc, hword⟩
  · have hfixed : fixedSpellings.all (·.2 != .ident) = true := by decide
    have hne := List.all_eq_true.1 hfixed _ hmem
    simp at hne
  · cases hkind
  · exact ⟨c, word, hx, hc, hword⟩

theorem Token.Lexical.isNamePart_of_mem {x : String} (h : Lexical (ident x)) :
    ∀ c ∈ x.toList, isNamePart c = true :=
  h.isName.forall

/-! ## Arguments -/

namespace Argument

/-- An argument has the characters of names and numbers. -/
theorem mem_render {a : Argument} (ha : Named a) {c : Char} (h : c ∈ a.render.toList) :
    c = '-' ∨ isNamePart c = true := by
  cases a with
  | var x => exact .inr ((ha x rfl).isNamePart_of_mem c h)
  | const v => exact (Text.Decimal.mem_ofInt h).imp_right isNamePart_of_isDigit

theorem render_ne_nil {a : Argument} (ha : Named a) : a.render.toList ≠ [] := by
  cases a with
  | var x =>
    obtain ⟨c, word, hx, -⟩ := (ha x rfl).isName
    exact hx ▸ List.cons_ne_nil c word
  | const v => exact Text.Decimal.ofInt_ne_nil v.toInt

/-- A name is no number. -/
theorem render_var_ne_const {x : String} (hx : Lexical (ident x)) (v : Int64) :
    (var x).render ≠ (const v).render := by
  intro h
  obtain ⟨c, word, hword, hc, -⟩ := hx.isName
  have hmem : c ∈ (const v).render.toList := by
    rw [← h, show (var x).render = x from rfl, hword]
    exact List.mem_cons_self
  have hstart := isNameStart_iff.1 hc
  rcases Text.Decimal.mem_ofInt hmem with rfl | hdigit
  · exact absurd hc (by decide)
  · have := isDigit_iff.1 hdigit
    omega

theorem eq_of_render {a b : Argument} (ha : Named a) (hb : Named b) (h : a.render = b.render) :
    a = b := by
  cases a with
  | var x =>
    cases b with
    | var y => exact congrArg var h
    | const v => exact absurd h (render_var_ne_const (ha x rfl) v)
  | const v =>
    cases b with
    | var y => exact absurd h.symm (render_var_ne_const (hb y rfl) v)
    | const w => exact congrArg const (Text.Decimal.ofInt64_injective h)

end Argument

/-! ## Terms -/

namespace Term

/-- A term whose variable, if it is one, has a name of the language. -/
def Named (t : Term) : Prop := ∀ a, t = .argument a → Grammar.Named a

theorem named_of_not_isFree {t : Term} (h : t.isFree = false) : t.Named := by
  rintro a rfl x rfl
  cases h

theorem toList_render_column (i : Int) :
    (column i).render.toList = '$' :: (Text.Decimal.ofInt i).toList := by
  show ("$" ++ Text.Decimal.ofInt i).toList = _
  rw [String.toList_append]
  rfl

/-- No term has a separator in it. -/
theorem not_mem_render {t : Term} (ht : t.Named) {mark : Char} (hmark : mark ∈ [',', ' ', '(']) :
    mark ∉ t.render.toList := by
  have hplain : ∀ c ∈ t.render.toList, c = '$' ∨ c = '-' ∨ isNamePart c = true := by
    intro c hc
    cases t with
    | column i =>
      rw [toList_render_column] at hc
      refine (List.mem_cons.1 hc).imp_right fun hc => ?_
      exact (Text.Decimal.mem_ofInt hc).imp_right isNamePart_of_isDigit
    | argument a => exact .inr (Argument.mem_render (ht a rfl) hc)
  -- separators are none of the characters that terms are made of
  have hmarks : [',', ' ', '('].all (fun c => c != '$' && c != '-' && !isNamePart c) = true := by
    decide
  have hmark := List.all_eq_true.1 hmarks mark hmark
  simp only [Bool.and_eq_true, bne_iff_ne, Bool.not_eq_true'] at hmark
  obtain ⟨⟨hdollar, hminus⟩, hpart⟩ := hmark
  intro hmem
  rcases hplain mark hmem with h | h | h
  · exact hdollar h
  · exact hminus h
  · rw [hpart] at h
    cases h

theorem render_ne_empty {t : Term} (ht : t.Named) : t.render ≠ "" := by
  rw [Ne, ← String.toList_inj]
  cases t with
  | column i =>
    rw [toList_render_column]
    exact List.cons_ne_nil _ _
  | argument a => exact Argument.render_ne_nil (ht a rfl)

/-- A column is no argument. -/
theorem render_column_ne_argument {a : Argument} (ha : Grammar.Named a) (i : Int) :
    (column i).render ≠ (argument a).render := by
  intro h
  have hmem : '$' ∈ (argument a).render.toList := by
    rw [← h, toList_render_column]
    exact List.mem_cons_self
  rcases Argument.mem_render ha hmem with hminus | hpart
  · exact absurd hminus (by decide)
  · exact absurd hpart (by decide)

theorem eq_of_render {t u : Term} (ht : t.Named) (hu : u.Named) (h : t.render = u.render) :
    t = u := by
  cases t with
  | column i =>
    cases u with
    | column j =>
      have hnumber := (String.append_right_inj _).1 h
      exact congrArg column (Text.Decimal.ofInt_injective hnumber)
    | argument b => exact absurd h (render_column_ne_argument (hu b rfl) i)
  | argument a =>
    cases u with
    | column j => exact absurd h.symm (render_column_ne_argument (ht a rfl) j)
    | argument b => exact congrArg argument (Argument.eq_of_render (ht a rfl) (hu b rfl) h)

end Term

/-- What is written differently is read back in lists. -/
theorem eq_of_map_eq {α β : Type} {P : α → Prop} {f : α → β}
    (hf : ∀ {a b}, P a → P b → f a = f b → a = b) {l l' : List α} (hl : ∀ a ∈ l, P a)
    (hl' : ∀ a ∈ l', P a) (h : l.map f = l'.map f) : l = l' := by
  induction l generalizing l' with
  | nil => exact (List.map_eq_nil_iff.1 h.symm).symm
  | cons a l ih =>
    cases l' with
    | nil => cases h
    | cons b l' =>
      obtain ⟨hfirst, hrest⟩ := List.cons.inj h
      obtain ⟨ha, hl⟩ := List.forall_mem_cons.1 hl
      obtain ⟨hb, hl'⟩ := List.forall_mem_cons.1 hl'
      rw [hf ha hb hfirst, ih hl hl' hrest]

/-! ## Selections and negated atoms -/

/-- A selection ends its column with a blank. -/
theorem Selection.eq_of_render {s s' : Selection} (hs : s.equals.Named) (hs' : s'.equals.Named)
    (h : s.render = s'.render) : s = s' := by
  have hsplit : ∀ s : Selection, s.render.toList
      = (Term.column s.column).render.toList ++ ' ' :: ("= ".toList ++ s.equals.render.toList) := by
    intro s
    rw [Selection.render, String.toList_append, String.toList_append, List.append_assoc]
    rfl
  have hlist := congrArg String.toList h
  rw [hsplit, hsplit] at hlist
  obtain ⟨hcolumn, hequals⟩ := Text.eq_of_append_mark
    (Term.not_mem_render (Term.named_of_not_isFree rfl) (by decide))
    (Term.not_mem_render (Term.named_of_not_isFree rfl) (by decide)) hlist
  have hterm := Term.eq_of_render (Term.named_of_not_isFree rfl) (Term.named_of_not_isFree rfl)
    (String.toList_inj.1 hcolumn)
  obtain ⟨column, equals⟩ := s
  obtain ⟨column', equals'⟩ := s'
  obtain rfl : column = column' := Int.ofNat.inj (Term.column.inj hterm)
  obtain rfl : equals = equals' :=
    Term.eq_of_render hs hs' (String.toList_inj.1 (List.append_cancel_left hequals))
  rfl

namespace NegatedAtom

/-- Predicate and variables have names of the language. -/
structure Named (n : NegatedAtom) : Prop where
  predicate : Lexical (ident n.predicate)
  args : ∀ t ∈ n.args, t.Named

/-- The predicate ends at the opening parenthesis, and the terms are separated by commas. -/
theorem eq_of_render {n n' : NegatedAtom} (hn : n.Named) (hn' : n'.Named)
    (h : n.render = n'.render) : n = n' := by
  have hsplit : ∀ n : NegatedAtom, n.render.toList = "not ".toList ++ (n.predicate.toList
      ++ '(' :: ((", ".intercalate (n.args.map Term.render)).toList ++ [')'])) := by
    intro n
    rw [render, Term.renderAll]
    simp only [String.toList_append, List.append_assoc]
    rfl
  have hparen : ∀ {n : NegatedAtom}, n.Named → '(' ∉ n.predicate.toList :=
    fun hn hmem => absurd (hn.predicate.isNamePart_of_mem '(' hmem) (by decide)
  have hterms : ∀ {n : NegatedAtom}, n.Named → ∀ s ∈ n.args.map Term.render,
      s ≠ "" ∧ ',' ∉ s.toList := by
    intro n hn s hs
    obtain ⟨t, ht, rfl⟩ := List.mem_map.1 hs
    exact ⟨Term.render_ne_empty (hn.args t ht), Term.not_mem_render (hn.args t ht) (by decide)⟩
  have hlist := congrArg String.toList h
  rw [hsplit, hsplit] at hlist
  obtain ⟨hpredicate, hrest⟩ :=
    Text.eq_of_append_mark (hparen hn) (hparen hn') (List.append_cancel_left hlist)
  have hargs := Text.eq_of_intercalate rfl (by decide) (hterms hn) (hterms hn')
    (String.toList_inj.1 (List.append_cancel_right hrest))
  obtain ⟨predicate, args⟩ := n
  obtain ⟨predicate', args'⟩ := n'
  obtain rfl : predicate = predicate' := String.toList_inj.1 hpredicate
  obtain rfl : args = args' := eq_of_map_eq Term.eq_of_render hn.args hn'.args hargs
  rfl

end NegatedAtom

end RulePlan
