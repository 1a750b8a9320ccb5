import RulePlan.Proofs.AliasOrigins
import RulePlan.Proofs.EquationDocuments

/-!
# RulePlan.Proofs.AliasIdentifiers — when an alias is a name of the language

An alias is made of a predicate and of arguments, with underscores between them and perhaps a number
behind. Predicates and variables are names, and a name in small letters is one again. A constant is
written in digits, a negative one as `neg` and the digits of its negation. There is one number whose
negation is not positive: the least of 64 bits is its own negation, and so keeps its minus sign. Its
alias is the only one that is not a name.
-/

namespace RulePlan

open Token

/-! ## Characters of names -/

namespace Token

/-- What starts with a name is one if it goes on with characters of names. -/
theorem isName_append_iff {cs ds : List Char} (h : IsName cs) :
    IsName (cs ++ ds) ↔ ∀ d ∈ ds, isNamePart d = true := by
  refine ⟨fun hall d hd => hall.forall d (List.mem_append_right cs hd), fun hds => ?_⟩
  obtain ⟨c, word, rfl, hc, hword⟩ := h
  exact ⟨c, word ++ ds, rfl, hc, List.forall_mem_append.2 ⟨hword, hds⟩⟩

end Token

namespace Text

theorem isNamePart_of_mem_ofNat {n : Nat} :
    ∀ c ∈ (Decimal.ofNat n).toList, isNamePart c = true := by
  intro c hc
  rw [Grammar.toList_ofNat] at hc
  exact isNamePart_of_isDigit (Grammar.isDigit_of_mem_digits c hc)

/-- Small letters stay characters of names. -/
theorem isNamePart_of_mem_lowerCase {x : String} (h : ∀ c ∈ x.toList, isNamePart c = true) :
    ∀ c ∈ (LowerCase.ofText x).toList, isNamePart c = true := by
  intro c hc
  rw [LowerCase.ofText, String.toList_ofList] at hc
  obtain ⟨d, hd, rfl⟩ := List.mem_map.1 hc
  have hpart := h d hd
  exact Yaml.forall_ascii
    (P := fun d => isNamePart d = true → isNamePart (LowerCase.ofChar d) = true)
    (by decide +kernel) (toNat_of_isNamePart hpart).2 hpart

/-- A number is written in digits iff it is not negative. -/
theorem isNamePart_ofInt_iff {n : Int} :
    (∀ c ∈ (Decimal.ofInt n).toList, isNamePart c = true) ↔ 0 ≤ n := by
  rw [Decimal.ofInt]
  split
  · next hneg =>
    refine iff_of_false (fun hall => ?_) (by omega)
    rw [String.toList_ofList] at hall
    exact absurd (hall '-' List.mem_cons_self) (by decide)
  · next hpos => exact iff_of_true isNamePart_of_mem_ofNat (by omega)

end Text

/-- Negation makes a negative number positive, but for the least one. -/
theorem toInt_neg_nonneg_iff {v : Int64} (h : v < 0) : 0 ≤ (-v).toInt ↔ v ≠ Int64.minValue := by
  have hneg : v.toInt < 0 := Int64.lt_iff_toInt_lt.1 h
  have hlow := Int64.le_toInt v
  have hmin : v = Int64.minValue ↔ v.toInt = -2 ^ 63 := by
    rw [← Int64.toInt_inj]
    rfl
  rw [ne_eq, hmin, Int64.toInt_neg, Int.bmod_def]
  omega

theorem toInt_nonneg_of_not_neg {v : Int64} (h : ¬v < 0) : 0 ≤ v.toInt ∧ v ≠ Int64.minValue := by
  have hnonneg : 0 ≤ v.toInt := by
    rw [Int64.lt_iff_toInt_lt] at h
    simpa using h
  refine ⟨hnonneg, ?_⟩
  rintro rfl
  exact absurd hnonneg (by decide)

/-! ## Characters of aliases -/

namespace ViewRegistry

/-- An argument is written in characters of names, unless it is the least number. -/
theorem isNamePart_aliasPart_iff {a : Argument} (h : Grammar.Named a) :
    (∀ c ∈ (aliasPart a).toList, isNamePart c = true) ↔ a ≠ .const Int64.minValue := by
  cases a with
  | var x =>
    exact iff_of_true (Text.isNamePart_of_mem_lowerCase (h x rfl).isNamePart_of_mem) nofun
  | const v =>
    rw [aliasPart, ne_eq, Argument.const.injEq]
    split
    · next hneg =>
      have hfront : ∀ c ∈ ['n', 'e', 'g'], isNamePart c = true := List.all_eq_true.1 rfl
      have hchars : "neg".toList = ['n', 'e', 'g'] := rfl
      rw [String.toList_append, hchars, List.forall_mem_append, and_iff_right hfront,
        Text.Decimal.ofInt64, Text.isNamePart_ofInt_iff, toInt_neg_nonneg_iff hneg]
    · next hpos =>
      obtain ⟨hnonneg, hne⟩ := toInt_nonneg_of_not_neg hpos
      exact iff_of_true (Text.isNamePart_ofInt_iff.2 hnonneg) hne

/-- A numbered spelling goes on with characters of names. -/
theorem exists_toList_spelling (base : String) (number n : Nat) :
    ∃ tail, (spelling base number n).toList = base.toList ++ tail
      ∧ ∀ c ∈ tail, isNamePart c = true := by
  have hrule : ∀ c ∈ "_r".toList ++ (Text.Decimal.ofInt number).toList, isNamePart c = true :=
    List.forall_mem_append.2
      ⟨List.all_eq_true.1 rfl, Text.isNamePart_ofInt_iff.2 (Int.natCast_nonneg number)⟩
  match n with
  | 0 => exact ⟨[], (List.append_nil _).symm, nofun⟩
  | 1 =>
    refine ⟨_, ?_, hrule⟩
    rw [spelling, variant, String.toList_append, String.toList_append, List.append_assoc]
  | n + 2 =>
    refine ⟨_ ++ ("_".toList ++ (Text.Decimal.ofNat (n + 2)).toList), ?_,
      List.forall_mem_append.2 ⟨hrule, List.forall_mem_append.2
        ⟨List.all_eq_true.1 rfl, Text.isNamePart_of_mem_ofNat⟩⟩⟩
    rw [spelling, variant]
    simp only [String.toList_append, List.append_assoc]

/-- An alias is a name iff the least number is no argument of the atom that it spells. -/
theorem isName_iff_of_spells {p : Program} {number : Nat} {b : Atom} {v : View} {n : Nat}
    {name : String} (h : p.Spells v number b n name) (hb : Grammar.NamedAtom b) :
    IsName name.toList ↔ .const Int64.minValue ∉ b.args := by
  obtain ⟨text, htext, rfl⟩ := h.name_eq
  obtain ⟨arranged, hperm, harranged⟩ := h.lookup.exists_text
  obtain rfl := Option.some.inj (htext.symm.trans harranged)
  obtain ⟨tail, hname, htail⟩ :=
    exists_toList_spelling (aliasText b.predicate arranged) number n
  rw [hname, toList_aliasText, List.append_assoc, isName_append_iff hb.predicate.isName,
    List.forall_mem_append, and_iff_left htail]
  simp only [List.mem_flatMap, hperm.mem_iff, List.mem_cons]
  constructor
  · intro hall hmem
    refine (isNamePart_aliasPart_iff (hb.args _ hmem)).1 (fun c hc => ?_) rfl
    exact hall c ⟨_, hmem, .inr hc⟩
  · rintro hmem c ⟨a, ha, rfl | hc⟩
    · rfl
    · exact (isNamePart_aliasPart_iff (hb.args a ha)).2 (fun heq => hmem (heq ▸ ha)) c hc

end ViewRegistry

/-! ## Plans -/

namespace Plan

/-- **Aliases are names, unless the least number is in them.** In a compiled plan, every alias of
every stratum spells a positive atom that some rule looks up through the view of the alias. The
alias is a name of the language, not empty and made of letters, digits and underscores behind a
letter or an underscore, iff no argument of that atom is the least 64-bit number. -/
theorem isName_alias_iff {request : Request} {plan : Plan}
    (h : (compile request).result = .ok plan) {s : StratumPlan} (hs : s ∈ plan.strata)
    {q : String × String} (hq : q ∈ s.views.aliases) :
    ∃ v number b n, v.name = q.2 ∧ plan.program.Spells v number b n q.1
      ∧ (IsName q.1.toList ↔ .const Int64.minValue ∉ b.args) := by
  obtain ⟨e, he, c, hc, rfl⟩ := exists_equation_of_mem_aliases h hs hq
  obtain ⟨final, hfinal, hlisted⟩ := exists_onTheWay h
  obtain ⟨v, -, hname, number, b, n, hspells⟩ := hfinal.sourced.aliases _ (hlisted e he c hc).2
  obtain ⟨i, r, hi, -, hb⟩ := hspells.lookup.positive
  obtain ⟨l, -, hreads⟩ := exists_of_mem_right
    (Program.interns_of_ofSource (source_of_compile h)).1 (List.mem_of_getElem? hi)
  have hnamed := hreads.namedAtoms b (Compilation.positive_subset_atoms hb)
  exact ⟨v, number, b, n, hname, hspells, ViewRegistry.isName_iff_of_spells hspells hnamed⟩

/-- A rule that joins two atoms, one of them with a constant. -/
def constantRequest (constant : String) : Request :=
  ⟨"constant.dl", "a(X) :- b(X), c(X, " ++ constant ++ ").", [], .failFast⟩

theorem isName_alias_iff_negative : ∃ plan, (compile (constantRequest "-5")).result = .ok plan
    ∧ ∃ s ∈ plan.strata, ("c_x_neg5", "c_view_1") ∈ s.views.aliases
      ∧ ∃ v number b n, v.name = "c_view_1" ∧ plan.program.Spells v number b n "c_x_neg5"
        ∧ (IsName "c_x_neg5".toList ↔ .const Int64.minValue ∉ b.args) := by
  have haliases : (compile (constantRequest "-5")).result.toOption.map
      (fun plan => plan.strata.map fun s => s.views.aliases)
        = some [[("c_x_neg5", "c_view_1"), ("b_x", "b_view_1")]] := by
    decide +kernel
  obtain ⟨plan, hplan, hstrata⟩ := Rule.map_toOption_eq_some_iff.1 haliases
  obtain ⟨s, hs, haliases⟩ := List.mem_map.1 (hstrata ▸ List.mem_cons_self)
  have hq : ("c_x_neg5", "c_view_1") ∈ s.views.aliases := haliases ▸ List.mem_cons_self
  exact ⟨plan, hplan, s, hs, hq, isName_alias_iff hplan hs hq⟩

/-- The least number keeps its minus sign, and so does its alias. -/
theorem not_isName_alias_least : ∃ plan,
    (compile (constantRequest "-9223372036854775808")).result = .ok plan
      ∧ ∃ s ∈ plan.strata, ∃ q ∈ s.views.aliases, ¬IsName q.1.toList := by
  have haliases : (compile (constantRequest "-9223372036854775808")).result.toOption.map
      (fun plan => plan.strata.map fun s => s.views.aliases)
        = some [[("c_x_neg-9223372036854775808", "c_view_1"), ("b_x", "b_view_1")]] := by
    decide +kernel
  obtain ⟨plan, hplan, hstrata⟩ := Rule.map_toOption_eq_some_iff.1 haliases
  obtain ⟨s, hs, haliases⟩ := List.mem_map.1 (hstrata ▸ List.mem_cons_self)
  refine ⟨plan, hplan, s, hs, _, haliases ▸ List.mem_cons_self, fun hname => ?_⟩
  exact absurd (hname.forall '-' (by simp)) (by decide)

end Plan

end RulePlan
