import RulePlan.Proofs.TimeText

/-!
# RulePlan.Proofs.TimeScalars — times and durations as scalars

Timestamps and durations are written without quotes. Their characters are digits and a few signs,
none of which is taken for structure. What stands there is read as a timestamp if it is one. A
duration is read as text, since it ends with the sign for seconds, which no number does.
-/

namespace RulePlan

open Text.Decimal (digits)
open Timestamp (padded)

namespace Yaml

/-- The characters of timestamps and of durations besides digits. -/
def signs : List Char := ['-', ':', '.', '+', 'T', 'Z', 'h', 'm', 's', 'n', 'µ']

theorem of_signs {c : Char} (h : c.isDigit = true ∨ c ∈ signs) :
    Prints c ∧ c ≠ ' ' ∧ c ≠ '#' ∧ isBlank c = false := by
  rcases h with hdigit | hsign
  · have hsmall : c.toNat < 128 := Plain.toNat_of_isAlphanum (by simp [Char.isAlphanum, hdigit])
    exact forall_ascii (P := fun c => c.isDigit = true → Prints c ∧ c ≠ ' ' ∧ c ≠ '#'
      ∧ isBlank c = false) (by decide +kernel) hsmall hdigit
  · simp only [signs, List.mem_cons, List.not_mem_nil, or_false] at hsign
    rcases hsign with rfl | rfl | rfl | rfl | rfl | rfl | rfl | rfl | rfl | rfl | rfl
    all_goals decide

/-- Digits and some other characters. -/
def Stamped (others cs : List Char) : Prop := ∀ c ∈ cs, c.isDigit = true ∨ c ∈ others

section

variable {others : List Char}

@[simp] theorem stamped_nil : Stamped others [] := fun _ hc => absurd hc List.not_mem_nil

@[simp] theorem stamped_cons {c : Char} {cs : List Char} :
    Stamped others (c :: cs) ↔ (c.isDigit = true ∨ c ∈ others) ∧ Stamped others cs :=
  List.forall_mem_cons

@[simp] theorem stamped_append {cs ds : List Char} :
    Stamped others (cs ++ ds) ↔ Stamped others cs ∧ Stamped others ds := List.forall_mem_append

@[simp] theorem stamped_padded (width n : Nat) : Stamped others (padded width n) :=
  fun _ hc => .inl (isDigit_of_mem_padded width n _ hc)

@[simp] theorem stamped_digits (n : Nat) : Stamped others (digits n) :=
  fun _ hc => .inl (Form.isDigit_of_mem_digits n _ hc)

@[simp] theorem stamped_kept (width n : Nat) : Stamped others (kept width n) :=
  fun _ hc => .inl (isDigit_of_mem_kept width n _ hc)

theorem Stamped.mono {more cs : List Char} (h : Stamped others cs) (hmore : others ⊆ more) :
    Stamped more cs :=
  fun c hc => (h c hc).imp_right fun hother => hmore hother

/-- A character that is neither a digit nor one of the others is missing. -/
theorem Stamped.not_mem {cs : List Char} (h : Stamped others cs) {c : Char}
    (hdigit : c.isDigit = false) (hother : c ∉ others) : c ∉ cs := by
  intro hc
  rcases h c hc with hc | hc
  · rw [hdigit] at hc
    cases hc
  · exact hother hc

end

theorem hasStructure_of_stamped {cs : List Char} (h : Stamped signs cs)
    (hlast : cs.getLast? ≠ some ':') (before : Char) : Style.hasStructure before cs = false := by
  induction cs generalizing before with
  | nil => rfl
  | cons c cs ih =>
    have hhash : c ≠ '#' := (of_signs (h c List.mem_cons_self)).2.2.1
    have hmore : Stamped signs cs := (stamped_cons.1 h).2
    cases cs with
    | nil =>
      have hcolon : c ≠ ':' := by
        rintro rfl
        exact hlast rfl
      simp [Style.hasStructure, hcolon, hhash]
    | cons d cs =>
      have hblank : isBlank d = false := (of_signs (hmore d List.mem_cons_self)).2.2.2
      rw [Style.hasStructure, ih hmore (by simpa using hlast)]
      simp [Style.blankNext, hblank, hhash]

/-- Times and durations stand without quotes. -/
theorem unquoted_of_stamped {cs : List Char} (h : Stamped signs cs)
    (hhead : ∃ c rest, cs = c :: rest ∧ c.isDigit = true) (hlast : cs.getLast? ≠ some ':') :
    Style.Unquoted cs := by
  obtain ⟨c, rest, rfl, hdigit⟩ := hhead
  have hsmall : c.toNat < 128 := Plain.toNat_of_isAlphanum (by simp [Char.isAlphanum, hdigit])
  obtain ⟨hindicator, hsign⟩ : Style.isIndicator c = false ∧ ¬(c = '-' ∨ c = '?' ∨ c = ':') :=
    forall_ascii (P := fun c => c.isDigit = true →
      Style.isIndicator c = false ∧ ¬(c = '-' ∨ c = '?' ∨ c = ':')) (by decide +kernel) hsmall
      hdigit
  have hfirst := of_signs (h c List.mem_cons_self)
  refine ⟨⟨fun d hd => (of_signs (h d hd)).1, by simp, by simpa using hfirst.2.1,
    by simpa using hfirst.2.2.1, fun hspace => ?_, hasStructure_of_stamped h hlast ' '⟩, ?_, ?_⟩
  · exact (of_signs (h ' ' (List.mem_of_getLast? hspace))).2.1 rfl
  · intro d hd
    obtain rfl : c = d := by simpa using hd
    exact hindicator
  · rintro d more hcons hd
    obtain ⟨rfl, -⟩ := List.cons.inj hcons
    exact absurd hd hsign

/-! ### Timestamps -/

theorem stamped_render (t : Timestamp) : Stamped signs t.render.toList := by
  have hfraction : Stamped signs t.renderFraction := by
    unfold Timestamp.renderFraction
    split
    · exact stamped_nil
    · exact stamped_cons.2 ⟨by decide, stamped_kept 9 t.nanosecond⟩
  have hzone : Stamped signs t.renderZone := by
    unfold Timestamp.renderZone
    split_ifs <;> simp [signs]
  have hmarks : '-' ∈ signs ∧ ':' ∈ signs ∧ 'T' ∈ signs := by decide
  rw [Timestamp.toList_render]
  simp [Timestamp.renderDate, Timestamp.renderClock, hfraction, hzone, hmarks]

theorem getLast?_render_ne (t : Timestamp) : t.render.toList.getLast? ≠ some ':' := by
  have hzone : ∃ c, t.renderZone.getLast? = some c ∧ c ≠ ':' := by
    unfold Timestamp.renderZone
    split
    · exact ⟨'Z', rfl, by decide⟩
    · have hsmall : t.offset.natAbs % 60 < 100 := by omega
      obtain ⟨a, b, hab⟩ := Timestamp.exists_pair hsmall
      have hb : b.isDigit = true := isDigit_of_mem_padded 2 _ b (by rw [hab]; simp)
      refine ⟨b, by simp [hab, List.getLast?_cons], ?_⟩
      rintro rfl
      exact absurd hb (by decide)
  obtain ⟨c, hlast, hc⟩ := hzone
  rw [Timestamp.toList_render]
  simpa [List.getLast?_append, List.getLast?_cons, hlast] using hc

theorem unquoted_render {t : Timestamp} (h : t.Proper) : Style.Unquoted t.render.toList := by
  obtain ⟨a, b, c, d, hyear, hdigits, -⟩ := Timestamp.exists_year h.year
  have ha : a.isDigit = true := by
    simp only [Bool.and_eq_true] at hdigits
    exact hdigits.1.1.1
  have hhead : ∃ c rest, t.render.toList = c :: rest ∧ c.isDigit = true := by
    rw [Timestamp.toList_render, Timestamp.renderDate, hyear]
    exact ⟨a, _, rfl, ha⟩
  exact unquoted_of_stamped (stamped_render t) hhead (getLast?_render_ne t)

/-- The text of a timestamp is read as that timestamp. -/
theorem ofPlain_render {t : Timestamp} (h : t.Proper) : Scalar.ofPlain t.render = .time t := by
  obtain ⟨a, b, c, d, hyear, hdigits, -⟩ := Timestamp.exists_year h.year
  simp only [Bool.and_eq_true] at hdigits
  obtain ⟨⟨⟨ha, hb⟩, hc⟩, hd⟩ := hdigits
  have hlist : ∃ rest, t.render.toList = a :: b :: c :: d :: '-' :: rest := by
    rw [Timestamp.toList_render, Timestamp.renderDate, hyear]
    exact ⟨_, rfl⟩
  obtain ⟨rest, hrest⟩ := hlist
  have hdate : Scalar.startsDate (a :: b :: c :: d :: '-' :: rest) = true := by
    simp [Scalar.startsDate, ha, hb, hc, hd, List.takeWhile]
  have htime : Timestamp.read? (String.ofList (a :: b :: c :: d :: '-' :: rest)) = some t := by
    rw [← hrest, String.ofList_toList]
    exact Timestamp.read?_render h
  rw [Form.ofPlain_of_isDigit hrest ha]
  simp only [Scalar.number?, hdate, htime, if_true, Option.getD_some]

/-! ### Durations -/

/-- The characters of durations besides digits. -/
def units : List Char := ['.', 'h', 'm', 's', 'n', 'µ']

theorem stamped_renderMagnitude (n : Nat) : Stamped units (Duration.renderMagnitude n) := by
  have hfraction (places n : Nat) : Stamped units (Duration.renderFraction places n) := by
    rw [Duration.renderFraction_eq, Duration.pointed]
    split
    · exact stamped_nil
    · exact stamped_cons.2 ⟨by decide, stamped_kept places n⟩
  have hoptional (absent : Prop) [Decidable absent] (n : Nat) {c : Char} (hc : c ∈ units) :
      Stamped units (if absent then [] else digits n ++ [c]) := by
    split <;> simp [hc]
  have hh := hoptional (n / 1000000000 / 60 / 60 = 0) (n / 1000000000 / 60 / 60)
    (c := 'h') (by decide)
  have hm := hoptional (n / 1000000000 / 60 = 0) (n / 1000000000 / 60 % 60) (c := 'm') (by decide)
  unfold Duration.renderMagnitude
  split_ifs
  · simp [units]
  · simp [units]
  · simp only [stamped_append, stamped_digits, hfraction, true_and]
    simp [units]
  · simp only [stamped_append, stamped_digits, hfraction, true_and]
    simp [units]
  · simp only [Duration.renderLong, stamped_append, hh, hm, stamped_digits, hfraction, true_and]
    simp [units]

theorem getLast?_renderMagnitude (n : Nat) : (Duration.renderMagnitude n).getLast? = some 's' := by
  unfold Duration.renderMagnitude Duration.renderLong
  split_ifs <;> simp

theorem radixValue?_eq_none {radix acc : Nat} {cs : List Char} (h : 's' ∈ cs) :
    Scalar.radixValue? radix acc cs = none := by
  induction cs generalizing acc with
  | nil => cases h
  | cons c cs ih =>
    rw [Scalar.radixValue?]
    cases hdigit : digit? c with
    | none => rfl
    | some d =>
      have hmore : 's' ∈ cs := by
        rcases List.mem_cons.1 h with rfl | hmore
        · cases hdigit
        · exact hmore
      simp only [ih hmore, ite_self]

/-- What ends with the sign for seconds is no whole number. -/
theorem unsigned?_eq_none {cs : List Char} (h : cs.getLast? = some 's') :
    Scalar.unsigned? cs = none := by
  have hmem : 's' ∈ cs := List.mem_of_getLast? h
  unfold Scalar.unsigned?
  split
  · rename_i c d rest
    have hmore : 's' ∈ d :: rest := List.mem_of_getLast? (by simpa [List.getLast?_cons] using h)
    have hsecond : 's' ∈ c :: d :: rest := List.mem_cons_of_mem c hmore
    simp only [radixValue?_eq_none hmore, radixValue?_eq_none hsecond, ite_self]
  · rename_i rest _
    have hmore : 's' ∈ rest := by simpa using hmem
    exact radixValue?_eq_none hmore
  · rw [Scalar.radixRun?, radixValue?_eq_none hmem, ite_self]

theorem exponent?_eq_none {cs : List Char} (h : 's' ∈ cs) (he : 'e' ∉ cs ∧ 'E' ∉ cs) :
    Text.Scientific.exponent? cs = none := by
  cases cs with
  | nil => cases h
  | cons c cs =>
    have hc : c ≠ 'e' ∧ c ≠ 'E' :=
      ⟨fun heq => he.1 (by simp [heq]), fun heq => he.2 (by simp [heq])⟩
    exact if_pos hc

theorem mem_dropWhile_isDigit {cs : List Char} (h : 's' ∈ cs) :
    's' ∈ cs.dropWhile Char.isDigit := by
  rw [← List.takeWhile_append_dropWhile (p := Char.isDigit) (l := cs)] at h
  rcases List.mem_append.1 h with h | h
  · exact absurd (List.mem_takeWhile_imp h) (by decide)
  · exact h

theorem scientific_eq_none {cs : List Char} (h : 's' ∈ cs) (he : 'e' ∉ cs ∧ 'E' ∉ cs) :
    Text.Scientific.read? cs = none := by
  have hsub : cs.dropWhile Char.isDigit ⊆ cs := (List.dropWhile_suffix _).subset
  have hdrop := mem_dropWhile_isDigit h
  have hrest : ∀ rest : List Char, rest ⊆ cs → 's' ∈ rest →
      Text.Scientific.exponent? rest = none :=
    fun rest hrest hs => exponent?_eq_none hs ⟨fun hc => he.1 (hrest hc), fun hc => he.2 (hrest hc)⟩
  unfold Text.Scientific.read?
  simp only
  split
  · rename_i rest heq
    rw [heq] at hsub hdrop
    have hs : 's' ∈ rest := by simpa using hdrop
    have hnone := hrest (rest.dropWhile Char.isDigit)
      (fun c hc => hsub (List.mem_cons_of_mem _ ((List.dropWhile_suffix _).subset hc)))
      (mem_dropWhile_isDigit hs)
    simp [hnone]
  · simp [hrest _ hsub hdrop]

/-- The text of a duration stands for itself. -/
theorem ofPlain_duration {n : Int} (h : 0 ≤ n) (hmost : n < Duration.most) :
    Style.Unquoted (Duration.render n).toList ∧ Scalar.ofPlain (Duration.render n) = .text := by
  have hlist : (Duration.render n).toList = Duration.renderMagnitude n.natAbs := by
    rw [Duration.render, if_neg (by omega), String.toList_ofList]
  have hstamped := stamped_renderMagnitude n.natAbs
  have hlast := getLast?_renderMagnitude n.natAbs
  have hhead := (Duration.counts_renderMagnitude (n := n.natAbs) (by omega)).head
  refine ⟨?_, ?_⟩
  · rw [hlist]
    refine unquoted_of_stamped (hstamped.mono (by decide)) hhead ?_
    rw [hlast]
    decide
  · obtain ⟨c, rest, hcs, hdigit⟩ := hhead
    rw [hcs] at hstamped hlast hlist
    have hs : 's' ∈ c :: rest := List.mem_of_getLast? hlast
    obtain ⟨-, hminus, hplus⟩ := Form.not_sign_of_isDigit hdigit
    have hint : Scalar.int? (c :: rest) = none := by
      rw [Form.int?_of_isDigit hdigit, unsigned?_eq_none hlast]
      rfl
    have hdecimal : Scalar.decimal? (c :: rest) = none := by
      have hnone := scientific_eq_none hs ⟨hstamped.not_mem (by decide) (by decide),
        hstamped.not_mem (by decide) (by decide)⟩
      unfold Scalar.decimal?
      split
      · rename_i heq
        exact absurd (List.cons.inj heq).1 hminus
      · rename_i heq
        exact absurd (List.cons.inj heq).1 hplus
      · rw [Scalar.magnitude?, hnone]
    have hmarked : Scalar.markedInt? (c :: rest) = none := by
      have hb : 'b' ∉ c :: rest := hstamped.not_mem (by decide) (by decide)
      have ho : 'o' ∉ c :: rest := hstamped.not_mem (by decide) (by decide)
      unfold Scalar.markedInt?
      split
      · rename_i heq
        exact absurd (by simp [heq]) hb
      · rename_i heq
        exact absurd (by simp [heq]) ho
      · rfl
    have hdash : '-' ∉ c :: rest := hstamped.not_mem (by decide) (by decide)
    have hmark : '_' ∉ c :: rest := hstamped.not_mem (by decide) (by decide)
    rw [Form.ofPlain_of_isDigit hlist hdigit, Form.number?_of_not_mem hdash hmark, hint, hdecimal,
      hmarked]
    rfl

end Yaml

end RulePlan
