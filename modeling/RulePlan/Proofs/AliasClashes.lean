import RulePlan.Proofs.AliasOrigins
import RulePlan.Proofs.RenderedTerms

/-!
# RulePlan.Proofs.AliasClashes — when an alias is the name of another view

Aliases are kept apart from each other, but not from the names of views. Both are parts with
underscores between them: a name ends with the part `view` and a number, an alias in its plain
spelling has the parts of an atom, its arguments in small letters, and a numbered one has a part in
front of its end that is `r` and a number. So a numbered alias is never the name of a view, and a
plain one only if the predicate or a variable of its atom has `view` as a part. Programs without
such names have no alias that is the name of a view.
-/

namespace RulePlan

open Token

/-! ## Parts of texts -/

/-- The parts of a text between its underscores. -/
def Text.parts (s : String) : List (List Char) := s.toList.splitOn '_'

/-- The part that the names of views have in front of their numbers. -/
def View.mark : List Char := ['v', 'i', 'e', 'w']

/-- The parts of the names in an atom, as an alias has them. -/
def Atom.parts (b : Atom) : List (List Char) :=
  (b.predicate :: (b.args.filterMap Argument.name?).map Text.LowerCase.ofText).flatMap Text.parts

namespace Text

theorem parts_append_underscore (s t : String) : parts (s ++ "_" ++ t) = parts s ++ parts t := by
  have hchars : (s ++ "_" ++ t).toList = s.toList ++ '_' :: t.toList := by
    rw [String.append_assoc, String.toList_append, String.toList_append]
    rfl
  rw [parts, hchars, List.splitOn_append_cons_self]
  rfl

theorem parts_of_not_mem {s : String} (h : '_' ∉ s.toList) : parts s = [s.toList] :=
  List.splitOn_eq_singleton h

theorem parts_ofNat (n : Nat) : parts (Decimal.ofNat n) = [Decimal.digits n] := by
  rw [parts_of_not_mem, Grammar.toList_ofNat]
  intro hmem
  rw [Grammar.toList_ofNat] at hmem
  exact absurd (Grammar.isDigit_of_mem_digits '_' hmem) (by decide)

end Text

/-- The parts of a name of a view: those of the predicate, the mark and the number. -/
theorem View.parts_nameOf (predicate : String) (n : Nat) :
    Text.parts (nameOf predicate n) = Text.parts predicate ++ [mark, Text.Decimal.digits n] := by
  have hname : nameOf predicate n
      = predicate ++ "_" ++ ("view" ++ "_" ++ Text.Decimal.ofNat n) := by
    rw [nameOf, String.append_assoc, String.append_assoc]
    rfl
  rw [hname, Text.parts_append_underscore, Text.parts_append_underscore, Text.parts_ofNat]
  rfl

namespace ViewRegistry

/-- The rule of a numbered spelling makes a part of its own. -/
theorem parts_variant_zero (base : String) (number : Nat) :
    Text.parts (variant base number 0)
      = Text.parts base ++ ['r' :: Text.Decimal.digits number] := by
  have hnumber : Text.Decimal.ofInt number = Text.Decimal.ofNat number := by
    rw [Text.Decimal.ofInt, if_neg (by omega), Int.natAbs_natCast]
  have hchars : ("r" ++ Text.Decimal.ofNat number).toList = 'r' :: Text.Decimal.digits number := by
    rw [String.toList_append, Grammar.toList_ofNat]
    rfl
  have hplain : '_' ∉ ("r" ++ Text.Decimal.ofNat number).toList := by
    rw [hchars, List.mem_cons]
    rintro (heq | hmem)
    · exact absurd heq (by decide)
    · exact absurd (Grammar.isDigit_of_mem_digits '_' hmem) (by decide)
  have hvariant : variant base number 0 = base ++ "_" ++ ("r" ++ Text.Decimal.ofNat number) := by
    rw [variant, hnumber, String.append_assoc, String.append_assoc]
    rfl
  rw [hvariant, Text.parts_append_underscore, Text.parts_of_not_mem hplain, hchars]

theorem parts_variant_succ (base : String) (number n : Nat) :
    Text.parts (variant base number (n + 1))
      = Text.parts base ++ ['r' :: Text.Decimal.digits number]
        ++ [Text.Decimal.digits (n + 2)] := by
  have hvariant : variant base number (n + 1)
      = variant base number 0 ++ "_" ++ Text.Decimal.ofNat (n + 2) := rfl
  rw [hvariant, Text.parts_append_underscore, parts_variant_zero, Text.parts_ofNat]

/-- A numbered spelling is not the name of a view. -/
theorem variant_ne_nameOf (base : String) (number n : Nat) (predicate : String) (k : Nat) :
    variant base number n ≠ View.nameOf predicate k := by
  intro heq
  have hparts := congrArg Text.parts heq
  rw [View.parts_nameOf, List.append_cons _ View.mark] at hparts
  cases n with
  | zero =>
    rw [parts_variant_zero] at hparts
    have hlast := (List.append_inj' hparts rfl).2
    have hmem : 'r' ∈ Text.Decimal.digits k := by
      rw [← (List.cons.inj hlast).1]
      exact List.mem_cons_self
    exact absurd (Grammar.isDigit_of_mem_digits 'r' hmem) (by decide)
  | succ n =>
    rw [parts_variant_succ] at hparts
    have hlast := (List.append_inj' (List.append_inj' hparts rfl).1 rfl).2
    exact absurd (List.cons.inj (List.cons.inj hlast).1).1 (by decide)

/-- The parts of an alias are those of the predicate and of each argument. -/
theorem parts_aliasText (predicate : String) (arranged : List Argument) :
    Text.parts (aliasText predicate arranged)
      = Text.parts predicate ++ arranged.flatMap fun a => Text.parts (aliasPart a) := by
  rw [Text.parts, toList_aliasText, Text.parts]
  generalize predicate.toList = front
  induction arranged generalizing front with
  | nil => simp
  | cons a more ih =>
    rw [List.flatMap_cons, ← List.append_assoc, ih, List.splitOn_append_cons_self,
      List.flatMap_cons, List.append_assoc]
    rfl

/-- A constant has no mark in it. -/
theorem mark_not_mem_parts_const (v : Int64) : View.mark ∉ Text.parts (aliasPart (.const v)) := by
  have hchars : ∀ c ∈ (aliasPart (.const v)).toList,
      c ∈ ['n', 'e', 'g', '-'] ∨ isDigit c = true := by
    have hnumber : ∀ w : Int64, ∀ c ∈ (Text.Decimal.ofInt64 w).toList,
        c ∈ ['n', 'e', 'g', '-'] ∨ isDigit c = true := by
      intro w c hc
      refine (Text.Decimal.mem_ofInt hc).imp_left ?_
      rintro rfl
      decide
    rw [aliasPart]
    split
    · rw [String.toList_append]
      exact List.forall_mem_append.2 ⟨fun c hc => .inl (List.mem_append_left ['-'] hc), hnumber _⟩
    · exact hnumber v
  have hplain : '_' ∉ (aliasPart (.const v)).toList := fun hmem =>
    absurd (hchars '_' hmem) (by decide)
  intro hmark
  rw [Text.parts_of_not_mem hplain, List.mem_singleton] at hmark
  exact absurd (hchars 'v' (hmark ▸ List.mem_cons_self)) (by decide)

/-- An alias whose text is the name of a view spells an atom that has the mark. -/
theorem mark_mem_parts_of_aliasText {p : Program} {number : Nat} {b : Atom} {v : View}
    (h : p.LooksUp number b v) {predicate : String} {k : Nat}
    (htext : aliasText? v b.args = some (View.nameOf predicate k)) : View.mark ∈ b.parts := by
  obtain ⟨arranged, hperm, harranged⟩ := h.exists_text
  have hname := Option.some.inj (harranged.symm.trans htext)
  have hmark : View.mark ∈ Text.parts (aliasText b.predicate arranged) := by
    rw [hname, View.parts_nameOf]
    simp
  rw [parts_aliasText, List.mem_append, List.mem_flatMap] at hmark
  rw [Atom.parts, List.flatMap_cons, List.mem_append]
  refine hmark.imp_right ?_
  rintro ⟨a, ha, hmark⟩
  have hargs := hperm.mem_iff.1 ha
  cases a with
  | const v => exact absurd hmark (mark_not_mem_parts_const v)
  | var x =>
    refine List.mem_flatMap.2 ⟨Text.LowerCase.ofText x, List.mem_map_of_mem ?_, hmark⟩
    exact List.mem_filterMap.2 ⟨_, hargs, rfl⟩

/-- An alias is the name of a view iff it is plain and its text is that name. -/
theorem eq_name_iff_of_spells {p : Program} {r : ViewRegistry} (h : r.Tidy) {v w : View}
    (hw : w ∈ r.views) {number : Nat} {b : Atom} {n : Nat} {name : String}
    (hname : p.Spells v number b n name) :
    name = w.name ↔ n = 0 ∧ aliasText? v b.args = some w.name := by
  obtain ⟨k, -, hk⟩ := h.numbered w hw
  obtain ⟨text, htext, rfl⟩ := hname.name_eq
  rw [htext, hk]
  cases n with
  | zero => simp [spelling]
  | succ n =>
    refine iff_of_false ?_ fun h => nomatch h.1
    exact variant_ne_nameOf _ _ _ _ _

/-! ## Registries of a program -/

/-- What aliases and names of views have in common: an alias is the name of a view iff it is plain
and its text is that name. The atom that it spells then has the mark, and where no atom that is
looked up has it, no alias is the name of a view. -/
structure Tells (p : Program) (r : ViewRegistry) : Prop where
  clashes : ∀ e ∈ r.aliases, ∃ v ∈ r.views, v.name = e.2 ∧ ∃ number b n, p.Spells v number b n e.1
    ∧ ∀ w ∈ r.views, e.1 = w.name ↔
      n = 0 ∧ aliasText? v b.args = some w.name ∧ View.mark ∈ b.parts
  apart : (∀ rule ∈ p.rules, ∀ b ∈ rule.positive, View.mark ∉ b.parts) →
    ∀ e ∈ r.aliases, ∀ w ∈ r.views, e.1 ≠ w.name

theorem OnTheWay.tells {p : Program} {r : ViewRegistry} (h : r.OnTheWay p) : r.Tells p := by
  have htidy := h.sourced.reached.tidy
  have hclashes : ∀ e ∈ r.aliases, ∃ v ∈ r.views, v.name = e.2 ∧ ∃ number b n,
      p.Spells v number b n e.1
        ∧ ∀ w ∈ r.views, e.1 = w.name ↔
          n = 0 ∧ aliasText? v b.args = some w.name ∧ View.mark ∈ b.parts := by
    intro e he
    obtain ⟨v, hv, howner, number, b, n, hspells⟩ := h.sourced.aliases e he
    refine ⟨v, hv, howner, number, b, n, hspells, fun w hw => ?_⟩
    rw [eq_name_iff_of_spells htidy hw hspells]
    refine and_congr_right fun _ => (and_iff_left_of_imp fun htext => ?_).symm
    obtain ⟨k, -, hk⟩ := htidy.numbered w hw
    exact mark_mem_parts_of_aliasText hspells.lookup (hk ▸ htext)
  refine ⟨hclashes, ?_⟩
  intro hnone e he w hw heq
  obtain ⟨v, -, -, number, b, n, hspells, hiff⟩ := hclashes e he
  obtain ⟨i, rule, hi, -, hb⟩ := hspells.lookup.positive
  exact hnone rule (List.mem_of_getElem? hi) b hb ((hiff w hw).1 heq).2.2

/-- **An alias may be the name of another view, but only in plain sight.** Take any registry that
lookups of the rules of a program lead to, also between the request for a view and that for its
alias. An alias in it is the name of a view iff it is not numbered and its text is that name; the
atom that it spells then has a predicate or a variable with the part `view`. If no atom has such a
name, no alias is the name of a view. A compilation of the program ends with such a registry, and
its aliases and names are those of the plan, over all strata. -/
theorem alias_clashes (p : Program) :
    (∀ registry : ViewRegistry, registry.OnTheWay p → registry.Tells p)
      ∧ ∀ request plan, (Plan.compile request).result = .ok plan → plan.program = p →
        ∃ final : ViewRegistry, final.OnTheWay p ∧ ∀ e ∈ plan.equations, e.Listed final := by
  refine ⟨fun _ h => h.tells, ?_⟩
  rintro request plan h rfl
  exact Plan.exists_onTheWay h

/-- Rules in which no name has the mark. -/
def plainRequest : Request :=
  ⟨"plain.dl", "a(X) :- d(X), p(X, Y).\nb(Z) :- d(Z), p(Z, 1).", [], .failFast⟩

theorem alias_clashes_plain : ∃ plan, (Plan.compile plainRequest).result = .ok plan
    ∧ ∃ final : ViewRegistry, final.OnTheWay plan.program ∧ (∀ e ∈ plan.equations, e.Listed final)
      ∧ ∀ e ∈ final.aliases, ∀ w ∈ final.views, e.1 ≠ w.name := by
  have hrules : (Plan.compile plainRequest).result.toOption.map
      (fun plan => plan.program.rules.flatMap Rule.positive)
        = some [⟨"d", [.var "X"]⟩, ⟨"p", [.var "X", .var "Y"]⟩,
          ⟨"d", [.var "Z"]⟩, ⟨"p", [.var "Z", .const 1]⟩] := by
    decide +kernel
  obtain ⟨plan, hplan, hatoms⟩ := Rule.map_toOption_eq_some_iff.1 hrules
  obtain ⟨htells, hfinal⟩ := alias_clashes plan.program
  obtain ⟨final, honTheWay, hlisted⟩ := hfinal plainRequest plan hplan rfl
  refine ⟨plan, hplan, final, honTheWay, hlisted, (htells final honTheWay).apart ?_⟩
  have hmarks : ∀ b ∈ plan.program.rules.flatMap Rule.positive, View.mark ∉ b.parts := by
    rw [hatoms]
    decide +kernel
  exact fun rule hrule b hb => hmarks b (List.mem_flatMap.2 ⟨rule, hrule, hb⟩)

/-- Rules of which the second spells the name of the view that the first consults. -/
def clashRequest : Request :=
  ⟨"clash.dl", "a(X) :- d(X), p(X, Y).\nb(View) :- d(View), p(View, 1).", [], .failFast⟩

theorem exists_alias_eq_name : ∃ plan, (Plan.compile clashRequest).result = .ok plan
    ∧ ∃ final : ViewRegistry, final.OnTheWay plan.program ∧ (∀ e ∈ plan.equations, e.Listed final)
      ∧ ∃ e ∈ final.aliases, ∃ w ∈ final.views, e.1 = w.name ∧ e.2 ≠ w.name := by
  have hlookups : (Plan.compile clashRequest).result.toOption.map
      (fun plan => (Equation.consultations plan.equations).map fun c => (c.viewAlias, c.viewName))
        = some [("p_x_y", "p_view_1"), ("d_x", "d_view_1"), ("p_view_1", "p_view_2"),
          ("d_x", "d_view_1")] := by
    decide +kernel
  obtain ⟨plan, hplan, hlookups⟩ := Rule.map_toOption_eq_some_iff.1 hlookups
  obtain ⟨final, honTheWay, hlisted⟩ := Plan.exists_onTheWay hplan
  have hfound : ∀ q ∈ (Equation.consultations plan.equations).map fun c =>
      (c.viewAlias, c.viewName), q ∈ final.aliases ∧ ∃ w ∈ final.views, w.name = q.2 := by
    intro q hq
    obtain ⟨c, hc, rfl⟩ := List.mem_map.1 hq
    obtain ⟨e, he, hconsulting⟩ := List.mem_filterMap.1 hc
    obtain ⟨hview, halias⟩ := hlisted e he c hconsulting
    exact ⟨halias, c.entry, hview, rfl⟩
  rw [hlookups] at hfound
  obtain ⟨halias, -⟩ := hfound ("p_view_1", "p_view_2") (by simp)
  obtain ⟨-, w, hw, hname⟩ := hfound ("p_x_y", "p_view_1") (by simp)
  refine ⟨plan, hplan, final, honTheWay, hlisted, _, halias, w, hw, hname.symm, ?_⟩
  rw [hname]
  decide

end ViewRegistry

end RulePlan
