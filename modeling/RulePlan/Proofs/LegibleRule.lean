import RulePlan.Digest.Sha256
import RulePlan.Equation
import RulePlan.Proofs.PredicateNames
import RulePlan.Proofs.ScalarReading
import RulePlan.Text.LowerCase

/-!
# RulePlan.Proofs.LegibleRule — rules are written in printing ASCII characters

Whatever a source holds besides, in comments or in lines that are refused, the rules that are read
from it have none but printing ASCII characters in their names and expressions: every token is
spelled in such characters, and a rule is made of the spellings of its tokens and of numbers. So are
the texts that are written of a rule.
-/

namespace RulePlan

/-! ## Texts of printing characters -/

namespace Text

theorem legible_append {s t : String} :
    IsPrintableAscii (s ++ t) ↔ IsPrintableAscii s ∧ IsPrintableAscii t := by
  simp only [IsPrintableAscii, String.toList_append, List.forall_mem_append]

theorem legible_empty : IsPrintableAscii "" := by decide

theorem legible_intercalate {separator : String} (hseparator : IsPrintableAscii separator)
    {l : List String} (h : ∀ s ∈ l, IsPrintableAscii s) :
    IsPrintableAscii (separator.intercalate l) := by
  induction l with
  | nil => exact legible_empty
  | cons s l ih =>
    obtain ⟨hs, hl⟩ := List.forall_mem_cons.1 h
    cases l with
    | nil => rwa [String.intercalate_singleton]
    | cons t l =>
      rw [String.intercalate_cons_cons, legible_append, legible_append]
      exact ⟨⟨hs, hseparator⟩, ih hl⟩

theorem legible_ofNat (n : Nat) : IsPrintableAscii (Decimal.ofNat n) := by
  intro c hc
  rw [Grammar.toList_ofNat] at hc
  have hdigit := Token.isDigit_iff.1 (Grammar.isDigit_of_mem_digits c hc)
  omega

theorem legible_ofInt (n : Int) : IsPrintableAscii (Decimal.ofInt n) := by
  unfold Decimal.ofInt
  split
  · have hminus : String.ofList ('-' :: Decimal.digits n.natAbs)
        = "-" ++ Decimal.ofNat n.natAbs := by
      rw [← String.toList_inj, String.toList_ofList, String.toList_append, Grammar.toList_ofNat]
      rfl
    rw [hminus, legible_append]
    exact ⟨by decide, legible_ofNat _⟩
  · exact legible_ofNat _

theorem legible_ofInt64 (v : Int64) : IsPrintableAscii (Decimal.ofInt64 v) := legible_ofInt v.toInt

theorem legible_hexDigest (text : String) :
    IsPrintableAscii (Digest.Sha256.hexDigest text) := by
  have hdigit : ∀ d < 16, 0x20 ≤ (Quoted.hexDigit d).toNat ∧ (Quoted.hexDigit d).toNat ≤ 0x7E := by
    decide
  have hhex : ∀ (width n : Nat), ∀ c ∈ Quoted.hex width n, 0x20 ≤ c.toNat ∧ c.toNat ≤ 0x7E := by
    intro width
    induction width with
    | zero => exact fun _ => nofun
    | succ width ih =>
      intro n c hc
      rcases List.mem_append.1 hc with hc | hc
      · exact ih (n / 16) c hc
      · rw [List.mem_singleton.1 hc]
        exact hdigit (n % 16) (Nat.mod_lt n (by decide))
  intro c hc
  rw [Digest.Sha256.hexDigest, String.toList_ofList] at hc
  obtain ⟨w, -, hw⟩ := List.mem_flatMap.1 hc
  exact hhex 8 w.toNat c hw

/-- Characters that print still do in their lower-case form. -/
theorem legible_lowerCase {s : String} (h : IsPrintableAscii s) :
    IsPrintableAscii (LowerCase.ofText s) := by
  intro c hc
  rw [LowerCase.ofText, String.toList_ofList] at hc
  obtain ⟨d, hd, rfl⟩ := List.mem_map.1 hc
  have hprints := h d hd
  exact Yaml.forall_ascii (P := fun d => 0x20 ≤ d.toNat ∧ d.toNat ≤ 0x7E →
    0x20 ≤ (LowerCase.ofChar d).toNat ∧ (LowerCase.ofChar d).toNat ≤ 0x7E)
    (by decide +kernel) (by omega) hprints

end Text

open Text

/-! ## Tokens and rules -/

/-- Tokens are spelled in characters that print. -/
theorem Token.Lexical.legible {t : Token} (h : Lexical t) : IsPrintableAscii t.text := by
  have hmunch := h [] (by simp [Delimited])
  have hname : ∀ {c : Char}, isNamePart c = true → 0x20 ≤ c.toNat ∧ c.toNat ≤ 0x7E := by
    intro c hc
    rw [isNamePart, Bool.or_eq_true, isNameStart_iff, isDigit_iff] at hc
    omega
  rcases munch_cases hmunch with hmem | ⟨-, -, hdigits⟩ | ⟨d, word, hspelling, -, hd, hword⟩
  · have hfixed : fixedSpellings.all
        (fun e => e.1.all fun c => 0x20 ≤ c.toNat && c.toNat ≤ 0x7E) = true := by decide
    intro c hc
    simpa using List.all_eq_true.1 (List.all_eq_true.1 hfixed _ hmem) c hc
  · exact fun c hc => hname (isNamePart_of_isDigit (hdigits c hc))
  · intro c hc
    rw [hspelling] at hc
    rcases List.mem_cons.1 hc with rfl | hc
    · exact hname (isNamePart_of_isNameStart hd)
    · exact hname (hword c hc)

/-- The names of an atom print. -/
structure Atom.Legible (a : Atom) : Prop where
  predicate : IsPrintableAscii a.predicate
  args : ∀ x, .var x ∈ a.args → IsPrintableAscii x

/-- The pieces of an expression print. -/
def Expression.Legible (e : Expression) : Prop :=
  IsPrintableAscii e.source ∧ ∀ p ∈ e.pieces, IsPrintableAscii p.text

/-- The names and expressions of an element print. -/
inductive Element.Legible : Element → Prop
  | literal {l : Literal} (h : l.atom.Legible) : Legible (.literal l)
  | assign {target : String} {value : Expression} (htarget : IsPrintableAscii target)
    (hvalue : value.Legible) : Legible (.assign target value)
  | test {condition : Expression} (h : condition.Legible) : Legible (.test condition)

/-- The names and expressions of a rule print. -/
structure Rule.Legible (r : Rule) : Prop where
  head : r.head.Legible
  body : ∀ e ∈ r.body, e.Legible

namespace Grammar

open Rule Token

theorem legible_spell {ts : List Token} (h : IsScanned ts) :
    IsPrintableAscii (Expression.spell ts) := by
  have hafter : ∀ {ts : List Token} (before : Token), IsScanned ts →
      IsPrintableAscii (Expression.spellAfter before ts) := by
    intro ts
    induction ts with
    | nil => exact fun _ _ => legible_empty
    | cons t ts ih =>
      intro before h
      -- a space or nothing, the token, and what follows it
      rw [Expression.spellAfter, legible_append, legible_append]
      refine ⟨⟨?_, (h t List.mem_cons_self).1.legible⟩,
        ih t fun u hu => h u (List.mem_cons_of_mem t hu)⟩
      split <;> decide
  cases ts with
  | nil => exact legible_empty
  | cons t ts =>
    rw [Expression.spell, legible_append]
    exact ⟨(h t List.mem_cons_self).1.legible,
      hafter t fun u hu => h u (List.mem_cons_of_mem t hu)⟩

theorem legible_expression {ts : List Token} (h : IsScanned ts) (hts : IsExpression ts) :
    (expression ts).Legible := by
  refine ⟨by rw [source_expression hts]; exact legible_spell h, ?_⟩
  obtain ⟨e, he⟩ := hts.accepted
  rw [expression_eq he]
  unfold Expression.ofTokens? at he
  obtain ⟨reads, -, he⟩ := Option.bind_eq_some_iff.1 he
  obtain rfl := Option.some.inj he
  intro p hp
  obtain ⟨t, ht, rfl⟩ := List.mem_map.1 hp
  exact (h t ht).1.legible

theorem legible_atom {x : AtomForm} (h : IsScanned x.tokens) (n : Nat) :
    (x.denote n).1.Legible := by
  have hnamed := namedAtom_denote h n
  exact ⟨hnamed.predicate.legible, fun y hy => (hnamed.args (.var y) hy y rfl).legible⟩

theorem legible_element {e : ElementForm} (hvalid : e.Valid) (h : IsScanned e.tokens) (n : Nat) :
    (e.denote n).1.Legible := by
  cases e with
  | literal negated atom =>
    exact .literal (legible_atom (h.mono fun t ht => List.mem_append_right _ ht) n)
  | assign target value =>
    refine .assign (h (ident target) List.mem_cons_self).1.legible (legible_expression ?_ hvalid)
    exact h.mono fun t ht => List.mem_cons_of_mem _ (List.mem_cons_of_mem _ ht)
  | test condition => exact .test (legible_expression h hvalid.toIsExpression)

theorem legible_body {es : List ElementForm} (hvalid : ∀ e ∈ es, e.Valid)
    (h : ∀ e ∈ es, IsScanned e.tokens) (n : Nat) : ∀ e ∈ denoteBody n es, e.Legible := by
  induction es generalizing n with
  | nil => exact nofun
  | cons e es ih =>
    obtain ⟨hv, hvs⟩ := List.forall_mem_cons.1 hvalid
    obtain ⟨hs, hss⟩ := List.forall_mem_cons.1 h
    exact List.forall_mem_cons.2 ⟨legible_element hv hs n, ih hvs hss _⟩

end Grammar

open Grammar in
/-- A rule that is read from a line prints. -/
theorem SourceLine.Reads.legible {l : SourceLine} {r : Rule} (h : l.Reads r) : r.Legible := by
  obtain ⟨form, ⟨tokens, htokens, hform, hvalid⟩, rfl⟩ := Rule.read_eq_ok_iff.1 h
  have hscanned : IsScanned form.tokens := hform ▸ Rule.isScanned_of_tokenize htokens
  exact ⟨legible_atom hscanned.head 0, legible_body hvalid.body hscanned.element 0⟩

/-! ## Texts that are written of rules -/

theorem Atom.Legible.argument {a : Atom} (h : a.Legible) {x : Argument} (hx : x ∈ a.args) :
    IsPrintableAscii x.render := by
  cases x with
  | var name => exact h.args name hx
  | const v => exact legible_ofInt64 v

theorem Atom.Legible.render {a : Atom} (h : a.Legible) : IsPrintableAscii a.render := by
  unfold Atom.render
  simp only [legible_append]
  refine ⟨⟨⟨h.predicate, by decide⟩, legible_intercalate (by decide) ?_⟩, by decide⟩
  intro s hs
  obtain ⟨x, hx, rfl⟩ := List.mem_map.1 hs
  exact h.argument hx

theorem Element.Legible.render {e : Element} (h : e.Legible) : IsPrintableAscii e.render := by
  cases h with
  | @literal l h =>
    show IsPrintableAscii ((if l.negated then "not " else "") ++ l.atom.render)
    rw [legible_append]
    exact ⟨by split <;> decide, h.render⟩
  | @assign target value htarget hvalue =>
    show IsPrintableAscii (target ++ " = " ++ value.source)
    rw [legible_append, legible_append]
    exact ⟨⟨htarget, by decide⟩, hvalue.1⟩
  | test h => exact h.1

theorem Rule.Legible.render {r : Rule} (h : r.Legible) : IsPrintableAscii r.render := by
  unfold Rule.render
  simp only [legible_append]
  refine ⟨⟨⟨h.head.render, by decide⟩, legible_intercalate (by decide) ?_⟩, by decide⟩
  intro s hs
  obtain ⟨e, he, rfl⟩ := List.mem_map.1 hs
  exact (h.body e he).render

/-! ## Parts of a rule -/

namespace Rule

variable {r : Rule}

theorem mem_body_of_mem_literals {l : Literal} (h : l ∈ r.literals) : .literal l ∈ r.body := by
  obtain ⟨e, he, hl⟩ := List.mem_filterMap.1 h
  split at hl
  · exact Option.some.inj hl ▸ he
  · cases hl

theorem mem_body_of_mem_tests {e : Expression} (h : e ∈ r.tests) : .test e ∈ r.body := by
  obtain ⟨x, hx, he⟩ := List.mem_filterMap.1 h
  split at he
  · exact Option.some.inj he ▸ hx
  · cases he

theorem mem_body_of_mem_assignments {te : String × Expression} (h : te ∈ r.assignments) :
    .assign te.1 te.2 ∈ r.body := by
  obtain ⟨x, hx, hte⟩ := List.mem_filterMap.1 h
  split at hte
  · exact Option.some.inj hte ▸ hx
  · cases hte

theorem negative_subset_atoms {a : Atom} (h : a ∈ r.negative) : a ∈ r.atoms := by
  obtain ⟨l, hl, rfl⟩ := List.mem_map.1 h
  exact List.mem_cons_of_mem _ (List.mem_map.2 ⟨l, (List.mem_filter.1 hl).1, rfl⟩)

/-- The atoms of a rule that prints do. -/
theorem Legible.atoms (h : r.Legible) : ∀ a ∈ r.atoms, a.Legible := by
  intro a ha
  rcases List.mem_cons.1 ha with rfl | ha
  · exact h.head
  · obtain ⟨l, hl, rfl⟩ := List.mem_map.1 ha
    cases h.body _ (mem_body_of_mem_literals hl) with
    | literal hatom => exact hatom

theorem Legible.test? (h : r.Legible) {e : Expression} (he : r.test? = some e) : e.Legible := by
  cases h.body _ (mem_body_of_mem_tests (List.mem_of_mem_head? he)) with
  | test hcondition => exact hcondition

theorem Legible.assignment? (h : r.Legible) {te : String × Expression}
    (hte : r.assignment? = some te) : IsPrintableAscii te.1 ∧ te.2.Legible := by
  cases h.body _ (mem_body_of_mem_assignments (List.mem_of_mem_head? hte)) with
  | assign htarget hvalue => exact ⟨htarget, hvalue⟩

end Rule

end RulePlan
