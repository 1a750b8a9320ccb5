import Mathlib.Algebra.Group.Nat.Defs
import Mathlib.Data.List.DropRight
import RulePlan.Duration
import RulePlan.Proofs.RecordReading
import RulePlan.Proofs.TokenSpelling

/-!
# RulePlan.Proofs.TimeText — times and durations are read back from their text

Both are written with numbers of a fixed width and with fractions of a second without the zeros at
their end. A reader that multiplies what is left of a fraction by the power of ten that was dropped
gets the fraction back. Timestamps are read with such a product. Durations are read with quotients
and products of 53 significant bits; the numbers that come up are whole and below a second, so
nothing is rounded.
-/

namespace RulePlan

open Text.Decimal (digits digitChar digitValue value)
open Timestamp (padded)

/-! ## Digits -/

namespace Text.Decimal

theorem value_cons_zero (ds : List Char) : value ('0' :: ds) = value ds := rfl

theorem value_replicate_append (k : Nat) (ds : List Char) :
    value (List.replicate k '0' ++ ds) = value ds := by
  induction k with
  | zero => rfl
  | succ k ih => rw [List.replicate_succ, List.cons_append, value_cons_zero, ih]

theorem value_append_replicate (ds : List Char) (k : Nat) :
    value (ds ++ List.replicate k '0') = value ds * 10 ^ k := by
  induction k with
  | zero => rw [List.replicate_zero, List.append_nil, Nat.pow_zero, Nat.mul_one]
  | succ k ih =>
    have hzero : digitValue '0' = 0 := rfl
    rw [List.replicate_succ', ← List.append_assoc, value_append_singleton, ih, hzero, Nat.pow_succ,
      Nat.add_zero, Nat.mul_comm 10, Nat.mul_assoc]

theorem length_digits_le {n width : Nat} (hwidth : 0 < width) (h : n < 10 ^ width) :
    (digits n).length ≤ width := by
  induction width generalizing n with
  | zero => omega
  | succ width ih =>
    rw [digits]
    split
    · rw [List.length_singleton]
      omega
    · rw [List.length_append, List.length_singleton]
      have hrest : n / 10 < 10 ^ width := by
        rw [Nat.pow_succ] at h
        omega
      have hpos : 0 < width := by
        rcases Nat.eq_zero_or_pos width with rfl | hpos
        · omega
        · exact hpos
      have := ih hpos hrest
      omega

end Text.Decimal

open Text.Decimal

theorem length_padded {width n : Nat} (hwidth : 0 < width) (h : n < 10 ^ width) :
    (padded width n).length = width := by
  have := length_digits_le hwidth h
  rw [padded, List.length_append, List.length_replicate]
  omega

theorem value_padded (width n : Nat) : value (padded width n) = n := by
  rw [padded, value_replicate_append, value_digits]

theorem isDigit_of_mem_padded (width n : Nat) : ∀ c ∈ padded width n, c.isDigit = true := by
  intro c hc
  rcases List.mem_append.1 hc with hc | hc
  · rw [(List.mem_replicate.1 hc).2]
    rfl
  · exact Yaml.Form.isDigit_of_mem_digits n c hc

/-- The digits of a fraction without the zeros at its end. -/
def kept (width n : Nat) : List Char := (padded width n).rdropWhile (· == '0')

theorem isDigit_of_mem_kept (width n : Nat) : ∀ c ∈ kept width n, c.isDigit = true :=
  fun c hc => isDigit_of_mem_padded width n c ((List.rdropWhile_prefix _ _).subset hc)

theorem length_kept_le {width n : Nat} (hwidth : 0 < width) (h : n < 10 ^ width) :
    (kept width n).length ≤ width :=
  Nat.le_trans (List.rdropWhile_prefix _ _).length_le (Nat.le_of_eq (length_padded hwidth h))

/-- What is left of a fraction stands for it, up to the power of ten that was dropped. -/
theorem value_kept {width n : Nat} (hwidth : 0 < width) (h : n < 10 ^ width) :
    value (kept width n) * 10 ^ (width - (kept width n).length) = n := by
  have hsplit : kept width n ++ (padded width n).rtakeWhile (· == '0') = padded width n :=
    List.rdropWhile_append_rtakeWhile
  have hzeros : (padded width n).rtakeWhile (· == '0')
      = List.replicate (width - (kept width n).length) '0' := by
    refine List.eq_replicate_iff.2 ⟨?_, fun c hc => by simpa using List.mem_rtakeWhile_imp hc⟩
    have hlength := congrArg List.length hsplit
    rw [List.length_append, length_padded hwidth h] at hlength
    omega
  rw [← value_append_replicate, ← hzeros, hsplit, value_padded]

theorem kept_ne_nil {width n : Nat} (hwidth : 0 < width) (h : n < 10 ^ width) (hn : n ≠ 0) :
    kept width n ≠ [] := by
  intro hnil
  have hvalue := value_kept hwidth h
  rw [hnil] at hvalue
  exact hn (hvalue.symm.trans (Nat.zero_mul _))

/-! ## Timestamps -/

namespace Timestamp

/-- A point in time whose year has four digits. -/
structure Proper (t : Timestamp) : Prop where
  year : t.year < 10000
  month : 1 ≤ t.month ∧ t.month ≤ 12
  day : 1 ≤ t.day ∧ t.day ≤ daysIn t.year t.month
  clock : t.hour < 24 ∧ t.minute < 60 ∧ t.second < 60
  nanosecond : t.nanosecond < 1000000000
  offset : t.offset.natAbs / 60 ≤ 24

theorem exists_pair {n : Nat} (h : n < 100) : ∃ a b, padded 2 n = [a, b] :=
  List.length_eq_two.1 (length_padded (by decide) h)

theorem short_padded {n : Nat} (h : n < 100) (rest : List Char) :
    short (padded 2 n ++ rest) = some (n, rest) := by
  obtain ⟨a, b, hab⟩ := exists_pair h
  have hdigit := isDigit_of_mem_padded 2 n
  have hvalue := value_padded 2 n
  rw [hab] at hdigit hvalue ⊢
  have ha : a.isDigit = true := hdigit a (by simp)
  have hb : b.isDigit = true := hdigit b (by simp)
  have hn : 10 * digitValue a + digitValue b = n := by simpa [value] using hvalue
  simp [short, ha, hb, hn]

/-- The digits of a year. -/
theorem exists_year {n : Nat} (h : n < 10000) : ∃ a b c d, padded 4 n = [a, b, c, d]
    ∧ (a.isDigit && b.isDigit && c.isDigit && d.isDigit) = true ∧ value [a, b, c, d] = n := by
  obtain ⟨a, b, c, d, habcd⟩ := List.length_eq_four.1 (length_padded (by decide) h)
  have hdigit := isDigit_of_mem_padded 4 n
  have hvalue := value_padded 4 n
  rw [habcd] at hdigit hvalue
  refine ⟨a, b, c, d, habcd, ?_, hvalue⟩
  rw [hdigit a (by simp), hdigit b (by simp), hdigit c (by simp), hdigit d (by simp)]
  rfl

theorem date_renderDate {t : Timestamp} (h : t.Proper) (rest : List Char) :
    date (t.renderDate ++ rest)
      = some ({ year := t.year, month := t.month, day := t.day }, rest) := by
  obtain ⟨a, b, c, d, hyear, hdigits, hvalue⟩ := exists_year h.year
  have hdays : daysIn t.year t.month ≤ 31 := by
    unfold daysIn
    repeat' split
    all_goals omega
  have hmonth := short_padded (n := t.month) (by have := h.month; omega)
  have hday := short_padded (n := t.day) (by have := h.day; omega)
  have hrange := And.intro h.month.1 (And.intro h.month.2 h.day)
  simp only [renderDate, hyear, List.cons_append, List.nil_append, List.append_assoc, date, hdigits,
    hvalue, expect, hmonth, hday, Bool.not_true, Bool.false_eq_true, if_false, if_true,
    Option.bind_eq_bind, Option.bind_some, if_pos hrange]

theorem head_renderZone (t : Timestamp) : ∃ c cs, t.renderZone = c :: cs ∧ c.isDigit = false
    ∧ c ≠ '.' ∧ c ≠ ',' := by
  unfold renderZone
  split
  · exact ⟨'Z', [], rfl, by decide⟩
  · split
    · exact ⟨'-', _, rfl, by decide⟩
    · exact ⟨'+', _, rfl, by decide⟩

theorem fraction_renderFraction {t : Timestamp} (h : t.Proper) :
    fraction (t.renderFraction ++ t.renderZone) = (t.nanosecond, t.renderZone) := by
  obtain ⟨c, cs, hzone, hdigit, hpoint, hcomma⟩ := head_renderZone t
  by_cases hzero : t.nanosecond = 0
  · have hnone : t.renderFraction = [] := if_pos hzero
    rw [hnone, List.nil_append, hzone, hzero]
    unfold fraction
    cases cs with
    | nil => rfl
    | cons d cs => simp [hpoint, hcomma]
  · have hwidth : 0 < 9 := by decide
    have hsome : t.renderFraction = '.' :: kept 9 t.nanosecond := if_neg hzero
    obtain ⟨d, ds, hds⟩ := List.exists_cons_of_ne_nil (kept_ne_nil hwidth h.nanosecond hzero)
    have hd : d.isDigit = true := isDigit_of_mem_kept 9 t.nanosecond d (by simp [hds])
    have hend : ∀ c ∈ t.renderZone.head?, c.isDigit = false := by simp [hzone, hdigit]
    obtain ⟨htake, hdrop⟩ :=
      Token.takeWhile_append_of_head (isDigit_of_mem_kept 9 t.nanosecond) hend
    have hall : (kept 9 t.nanosecond).take 9 = kept 9 t.nanosecond :=
      List.take_of_length_le (length_kept_le hwidth h.nanosecond)
    have hvalue := value_kept hwidth h.nanosecond
    rw [hds] at htake hdrop hall hvalue
    rw [hsome, hds]
    simp only [List.cons_append] at htake hdrop ⊢
    simp only [fraction, hd, true_or, and_self, if_true, List.drop_one, List.tail_cons, htake,
      hdrop, hall]
    exact congrArg (·, _) hvalue

theorem clock_render {t : Timestamp} (h : t.Proper) (start : Timestamp) :
    clock start (t.renderClock ++ (t.renderFraction ++ t.renderZone))
      = some ({ start with
          hour := t.hour
          minute := t.minute
          second := t.second
          nanosecond := t.nanosecond }, t.renderZone) := by
  obtain ⟨hhour, hminute, hsecond⟩ := h.clock
  have hhours := short_padded (n := t.hour) (by omega)
  have hminutes := short_padded (n := t.minute) (by omega)
  have hseconds := short_padded (n := t.second) (by omega)
  simp only [renderClock, List.append_assoc, List.cons_append, clock, hhours, hminutes, hseconds,
    expect, if_true, Option.bind_eq_bind, Option.bind_some, fraction_renderFraction h, hhour,
    hminute, hsecond, and_self]

/-- The text of a distance from Greenwich is read as that distance, with either sign. -/
theorem zone_padded {n : Nat} (h : n / 60 ≤ 24) (start : Timestamp) {sign : Char}
    (hsign : sign = '-' ∨ sign = '+') :
    zone start (sign :: (padded 2 (n / 60) ++ ':' :: padded 2 (n % 60)))
      = some { start with offset := if sign = '+' then (n : Int) else -(n : Int) } := by
  have hlarge : n / 60 < 100 := Nat.lt_of_le_of_lt h (by decide)
  have hsmall : n % 60 < 60 := Nat.mod_lt _ (by decide)
  obtain ⟨a, b, hab⟩ := exists_pair hlarge
  obtain ⟨c, d, hcd⟩ := exists_pair (Nat.lt_trans hsmall (by decide))
  have hhours := value_padded 2 (n / 60)
  have hminutes := value_padded 2 (n % 60)
  have hfirst := isDigit_of_mem_padded 2 (n / 60)
  have hlast := isDigit_of_mem_padded 2 (n % 60)
  rw [hab] at hhours hfirst ⊢
  rw [hcd] at hminutes hlast ⊢
  have hdigits : (a.isDigit && b.isDigit && c.isDigit && d.isDigit) = true := by
    rw [hfirst a (by simp), hfirst b (by simp), hlast c (by simp), hlast d (by simp)]
    rfl
  have hsum : 60 * ((n / 60 : Nat) : Int) + ((n % 60 : Nat) : Int) = n := by omega
  have hrange : (a.isDigit && b.isDigit && c.isDigit && d.isDigit && decide (n / 60 ≤ 24)
      && decide (n % 60 ≤ 60)) = true := by
    rw [hdigits, decide_eq_true h, decide_eq_true hsmall.le]
    rfl
  simp only [List.cons_append, List.nil_append, zone, hhours, hminutes, hrange, if_true, hsum]
  rcases hsign with rfl | rfl
  · rfl
  · rfl

theorem zone_renderZone {t : Timestamp} (h : t.Proper) (start : Timestamp)
    (hstart : start.offset = 0) :
    zone start t.renderZone = some { start with offset := t.offset } := by
  unfold renderZone
  split
  case isTrue hzero =>
    rw [hzero, ← hstart]
    rfl
  case isFalse hzero =>
    split
    case isTrue hsign =>
      have hoffset : -(t.offset.natAbs : Int) = t.offset := by omega
      have hread := zone_padded h.offset start (.inl rfl)
      rwa [if_neg (by decide), hoffset] at hread
    case isFalse hsign =>
      have hoffset : (t.offset.natAbs : Int) = t.offset := by omega
      have hread := zone_padded h.offset start (.inr rfl)
      rwa [if_pos rfl, hoffset] at hread

theorem toList_render (t : Timestamp) : t.render.toList
    = t.renderDate ++ 'T' :: (t.renderClock ++ (t.renderFraction ++ t.renderZone)) := by
  rw [render, String.toList_ofList]
  simp only [List.append_assoc, List.cons_append]

/-- **Timestamps are read back.** -/
theorem read?_render {t : Timestamp} (h : t.Proper) : read? t.render = some t := by
  simp only [read?, toList_render, date_renderDate h, Option.bind_eq_bind, Option.bind_some,
    true_or, if_true, clock_render h]
  exact zone_renderZone h _ rfl

end Timestamp

/-! ## Exact quotients -/

namespace Text.Fixed

theorem roundDiv_mul (n : Nat) {den : Nat} (hden : 0 < den) : roundDiv (n * den) den = n := by
  have hquotient : n * den / den = n := Nat.mul_div_cancel n hden
  have hrest : n * den % den = 0 := Nat.mul_mod_left n den
  simp only [roundDiv, hquotient, hrest, Nat.mul_zero, hden, if_true]

/-- A whole quotient of at most 53 bits is not rounded. -/
theorem binary_mul {n den : Nat} (hden : 0 < den) (hn : n < 2 ^ 53) :
    ∃ shift, binary (n * den) den = ⟨n * 2 ^ shift, shift, 0⟩ := by
  have hquotient : n * den / den = n := Nat.mul_div_cancel n hden
  have hround (shift : Nat) : roundDiv ((n * den) <<< shift) den = n * 2 ^ shift := by
    rw [Nat.shiftLeft_eq, Nat.mul_right_comm]
    exact roundDiv_mul _ hden
  rcases Nat.eq_zero_or_pos n with rfl | hpos
  · refine ⟨Nat.log2 (den / max (0 * den) 1) + 54, ?_⟩
    simp only [binary, hquotient, if_true, hround]
  · have hlog : Nat.log2 n ≤ 52 :=
      Nat.le_of_lt_succ ((Nat.log2_lt (Nat.ne_of_gt hpos)).2 hn)
    refine ⟨52 - Nat.log2 n, ?_⟩
    simp only [binary, hquotient, Nat.ne_of_gt hpos, if_false, hlog, if_true, hround]

theorem floor_binary_mul {n den : Nat} (hden : 0 < den) (hn : n < 2 ^ 53) :
    (binary (n * den) den).floor = n := by
  obtain ⟨shift, hbinary⟩ := binary_mul hden hn
  rw [hbinary, Binary.floor, Nat.shiftLeft_zero, Nat.shiftRight_eq_div_pow]
  exact Nat.mul_div_cancel n (Nat.two_pow_pos shift)

end Text.Fixed

/-! ## Durations -/

namespace Duration

theorem le_foldl (ds : List Char) (n : Nat) :
    n ≤ ds.foldl (fun acc c => 10 * acc + digitValue c) n := by
  induction ds generalizing n with
  | nil => exact Nat.le_refl n
  | cons d ds ih => exact Nat.le_trans (by omega) (ih (10 * n + digitValue d))

/-- Digits of a fraction that fit are all taken. -/
theorem fractionValue_eq {ds : List Char} {n : Nat}
    (h : ds.foldl (fun acc c => 10 * acc + digitValue c) n ≤ (most - 1) / 10) (power : Nat) :
    fractionValue n power ds
      = (ds.foldl (fun acc c => 10 * acc + digitValue c) n, power * 10 ^ ds.length) := by
  induction ds generalizing n power with
  | nil => rw [fractionValue, List.foldl_nil, List.length_nil, Nat.pow_zero, Nat.mul_one]
  | cons d ds ih =>
    rw [List.foldl_cons] at h
    have hnext := Nat.le_trans (le_foldl ds _) h
    have hfits : ¬((most - 1) / 10 < n ∨ most < 10 * n + digitValue d) := by
      unfold most at hnext ⊢
      omega
    have hpower : 10 * power * 10 ^ ds.length = power * 10 ^ (ds.length + 1) := by
      rw [Nat.pow_succ, Nat.mul_comm 10 power, Nat.mul_assoc, Nat.mul_comm 10]
    rw [fractionValue]
    simp only [hfits, if_false]
    rw [ih h, hpower]
    rfl

/-- A fraction that makes a whole number of nanoseconds is not rounded. -/
theorem fractionOf_eq (ds : List Char) {scale : Nat} (hscale : 0 < scale)
    (hfits : value ds ≤ (most - 1) / 10) (hsmall : value ds * scale < 2 ^ 53)
    (hscale' : scale < 2 ^ 53) : fractionOf ds (scale * 10 ^ ds.length) = value ds * scale := by
  have hvalue : fractionValue 0 1 ds = (value ds, 10 ^ ds.length) := by
    rw [fractionValue_eq hfits, Nat.one_mul]
    rfl
  have hwhole : value ds < 2 ^ 53 :=
    Nat.lt_of_le_of_lt (Nat.le_mul_of_pos_right _ hscale) hsmall
  obtain ⟨left, hleft⟩ := Text.Fixed.binary_mul Nat.one_pos hwhole
  obtain ⟨right, hright⟩ :=
    Text.Fixed.binary_mul (Nat.pow_pos (n := ds.length) (by decide : 0 < 10)) hscale'
  rw [Nat.mul_one] at hleft
  have hproduct : value ds * 2 ^ left * (scale * 2 ^ right)
      = value ds * scale * 2 ^ (left + right) := by
    rw [Nat.pow_add]
    ac_rfl
  simp only [fractionOf, hvalue, hleft, hright, Nat.add_zero, Nat.shiftLeft_eq, Nat.pow_zero,
    Nat.mul_one, Nat.one_mul, hproduct]
  exact Text.Fixed.floor_binary_mul (Nat.two_pow_pos _) hsmall

/-- A fraction with its point. -/
def pointed (ds : List Char) : List Char := if ds = [] then [] else '.' :: ds

theorem digits_zero : digits 0 = ['0'] := by
  rw [digits]
  rfl

theorem kept_zero (width : Nat) : kept width 0 = [] := by
  refine List.rdropWhile_eq_nil_iff.2 fun c hc => ?_
  rw [padded, digits_zero, List.mem_append, List.mem_replicate, List.mem_singleton] at hc
  rcases hc with ⟨-, rfl⟩ | rfl <;> rfl

theorem renderFraction_eq (places n : Nat) : renderFraction places n = pointed (kept places n) := by
  have hkept : (((List.replicate (places - (digits n).length) '0' ++ digits n).reverse.dropWhile
      (· == '0')).reverse) = kept places n := rfl
  unfold renderFraction pointed
  simp only [hkept]
  cases hcases : kept places n with
  | nil => rfl
  | cons d ds =>
    have hn : n ≠ 0 := by
      rintro rfl
      rw [kept_zero] at hcases
      cases hcases
    simp [hn]

theorem fractionOf_kept {places n : Nat} (hplaces : 0 < places) (hmost : places ≤ 9)
    (h : n < 10 ^ places) : fractionOf (kept places n) (10 ^ places) = n := by
  have hle := length_kept_le hplaces h
  have hvalue := value_kept hplaces h
  have hscale : 10 ^ places
      = 10 ^ (places - (kept places n).length) * 10 ^ (kept places n).length := by
    rw [← Nat.pow_add]
    congr 1
    omega
  have hbound : 10 ^ places ≤ 10 ^ 9 := Nat.pow_le_pow_right (by decide) hmost
  have hbound' : 10 ^ (places - (kept places n).length) ≤ 10 ^ 9 :=
    Nat.pow_le_pow_right (by decide) (by omega)
  have hpos : 0 < 10 ^ (places - (kept places n).length) := Nat.pow_pos (by decide)
  have hsmall : value (kept places n) ≤ n := by
    conv_rhs => rw [← hvalue]
    exact Nat.le_mul_of_pos_right _ hpos
  conv_lhs => rw [hscale]
  rw [fractionOf_eq _ hpos (by unfold most; omega) (by omega) (by omega), hvalue]

theorem fractionOf_nil {size : Nat} (hpos : 0 < size) (h : size < 2 ^ 53) :
    fractionOf [] size = 0 := by
  have hnone := fractionOf_eq [] hpos (Nat.zero_le _) (by simp [value]) h
  simpa [value] using hnone

/-! ### Units -/

/-- A name of a unit with its nanoseconds. -/
structure IsUnit (name : List Char) (size : Nat) : Prop where
  reads : unit? name = some size
  ne_nil : name ≠ []
  inUnit : ∀ c ∈ name, inUnit c = true
  pos : 0 < size
  small : size < 2 ^ 53

theorem isUnit_nanoseconds : IsUnit ['n', 's'] 1 :=
  ⟨rfl, by decide, List.all_eq_true.1 rfl, by decide, by decide⟩

theorem isUnit_microseconds : IsUnit ['µ', 's'] (10 ^ 3) :=
  ⟨rfl, by decide, List.all_eq_true.1 rfl, by decide, by decide⟩

theorem isUnit_milliseconds : IsUnit ['m', 's'] (10 ^ 6) :=
  ⟨rfl, by decide, List.all_eq_true.1 rfl, by decide, by decide⟩

theorem isUnit_seconds : IsUnit ['s'] (10 ^ 9) :=
  ⟨rfl, by decide, List.all_eq_true.1 rfl, by decide, by decide⟩

theorem isUnit_minutes : IsUnit ['m'] 60000000000 :=
  ⟨rfl, by decide, List.all_eq_true.1 rfl, by decide, by decide⟩

theorem isUnit_hours : IsUnit ['h'] 3600000000000 :=
  ⟨rfl, by decide, List.all_eq_true.1 rfl, by decide, by decide⟩

theorem inUnit_of_isDigit {c : Char} (h : c.isDigit = true) : inUnit c = false := by
  rw [inUnit, h]
  rfl

/-! ### Components -/

/-- A number with its unit is read up to the next number. -/
theorem component?_eq {n size part : Nat} {ds name rest : List Char} (hunit : IsUnit name size)
    (hds : ∀ c ∈ ds, c.isDigit = true) (hpart : fractionOf ds size = part)
    (hrest : ∀ c ∈ rest.head?, inUnit c = false) (hfits : n * size + part ≤ most) :
    component? (digits n ++ (pointed ds ++ (name ++ rest))) = some (n * size + part, rest) := by
  have hname := hunit.reads
  obtain ⟨u, us, rfl⟩ := List.exists_cons_of_ne_nil hunit.ne_nil
  have hu : u.isDigit = false ∧ u ≠ '.' := by
    simpa [inUnit] using hunit.inUnit u List.mem_cons_self
  have hend : ∀ c ∈ (pointed ds ++ (u :: us ++ rest)).head?, c.isDigit = false := by
    unfold pointed
    split <;> simp [hu.1]
  have hafter : ∀ c ∈ (u :: us ++ rest).head?, c.isDigit = false := by simp [hu.1]
  have hwhole := Token.takeWhile_append_of_head (Yaml.Form.isDigit_of_mem_digits n) hend
  have hfraction := Token.takeWhile_append_of_head hds hafter
  have hunits := Token.takeWhile_append_of_head hunit.inUnit hrest
  have hle : n ≤ most / size := (Nat.le_div_iff_mul_le hunit.pos).2 (by omega)
  have hsmall : n ≤ most := Nat.le_trans hle (Nat.div_le_self _ _)
  have hrange : ¬(most < n ∨ most / size < n ∨ most < n * size + part) := by omega
  unfold component?
  simp only [hwhole.1, hwhole.2]
  unfold pointed
  by_cases hnil : ds = []
  · subst hnil
    simp only [List.cons_append] at hunits
    simp [hu.2, hunits.1, hunits.2, hname, value_digits, hpart, digits_ne_nil, hrange]
  · simp only [if_neg hnil, List.cons_append] at hfraction hunits ⊢
    simp [hfraction.1, hfraction.2, hunits.1, hunits.2, hname, value_digits, hpart, digits_ne_nil,
      hrange]

/-- A text that adds to a sum, if there is room for it. -/
def Adds (cs : List Char) (n : Nat) : Prop :=
  ∀ fuel total, cs.length ≤ fuel → total + n ≤ most → sum? fuel total cs = some (total + n)

theorem adds_nil : Adds [] 0 := fun _ _ _ _ => by rw [sum?, Nat.add_zero]

theorem Adds.component {cs rest : List Char} {n m : Nat} (h : Adds rest m)
    (hread : component? cs = some (n, rest)) (hless : rest.length < cs.length) :
    Adds cs (n + m) := by
  intro fuel total hfuel hroom
  have hpos : 0 < cs.length := Nat.zero_lt_of_lt hless
  obtain ⟨fuel, rfl⟩ := Nat.exists_eq_add_one.2 (Nat.lt_of_lt_of_le hpos hfuel)
  obtain ⟨c, cs, rfl⟩ := List.exists_cons_of_ne_nil (List.ne_nil_of_length_pos hpos)
  have hword : (total + n) % word = total + n := by
    refine Nat.mod_eq_of_lt ?_
    unfold word
    unfold most at hroom ⊢
    omega
  have hfits : ¬most < total + n := by omega
  rw [sum?]
  · simp only [hread, hword, hfits, if_false]
    rw [h fuel (total + n) (by omega) (by omega), Nat.add_assoc]
  · simp

/-- A number of some unit in front of further components. -/
theorem Adds.number (n : Nat) {size part m : Nat} {ds name rest : List Char} (h : Adds rest m)
    (hunit : IsUnit name size) (hds : ∀ c ∈ ds, c.isDigit = true)
    (hpart : fractionOf ds size = part) (hrest : ∀ c ∈ rest.head?, inUnit c = false)
    (hfits : n * size + part ≤ most) :
    Adds (digits n ++ (pointed ds ++ (name ++ rest))) (n * size + part + m) := by
  refine h.component (component?_eq hunit hds hpart hrest hfits) ?_
  have := List.length_pos_iff.2 (digits_ne_nil n)
  simp only [List.length_append]
  omega

/-- A number without a fraction. -/
theorem Adds.whole (n : Nat) {size m : Nat} {name rest : List Char} (h : Adds rest m)
    (hunit : IsUnit name size) (hrest : ∀ c ∈ rest.head?, inUnit c = false)
    (hfits : n * size ≤ most) : Adds (digits n ++ (name ++ rest)) (n * size + m) :=
  h.number n hunit (List.forall_mem_nil _) (fractionOf_nil hunit.pos hunit.small) hrest hfits

/-- A number with a fraction, at the end. -/
theorem adds_last (n part : Nat) {places : Nat} {name : List Char}
    (hunit : IsUnit name (10 ^ places)) (hplaces : 0 < places) (hmost : places ≤ 9)
    (hpart : part < 10 ^ places) (hfits : n * 10 ^ places + part ≤ most) :
    Adds (digits n ++ (renderFraction places part ++ name)) (n * 10 ^ places + part) := by
  have hadds := adds_nil.number n hunit (isDigit_of_mem_kept places part)
    (fractionOf_kept hplaces hmost hpart) (by simp) hfits
  rwa [List.append_nil, ← renderFraction_eq] at hadds

theorem head_digits (n : Nat) (cs : List Char) :
    ∃ c rest, digits n ++ cs = c :: rest ∧ c.isDigit = true := by
  obtain ⟨c, rest, hrest⟩ := List.exists_cons_of_ne_nil (digits_ne_nil n)
  have hdigit : c.isDigit = true := Yaml.Form.isDigit_of_mem_digits n c (by simp [hrest])
  exact ⟨c, rest ++ cs, by rw [hrest, List.cons_append], hdigit⟩

/-- Texts that start with a digit and add to a sum. -/
structure Counts (cs : List Char) (n : Nat) : Prop where
  adds : Adds cs n
  head : ∃ c rest, cs = c :: rest ∧ c.isDigit = true

theorem Counts.not_inUnit {cs : List Char} {n : Nat} (h : Counts cs n) :
    ∀ c ∈ cs.head?, inUnit c = false := by
  obtain ⟨d, rest, rfl, hd⟩ := h.head
  intro c hc
  obtain rfl : d = c := by simpa using hc
  exact inUnit_of_isDigit hd

/-- A number that is left out if it is too small to matter. -/
theorem Counts.optional (absent : Prop) [Decidable absent] (n : Nat) {size m : Nat}
    {name rest : List Char} (h : Counts rest m) (hunit : IsUnit name size)
    (habsent : absent → n = 0) (hfits : n * size ≤ most) :
    Counts ((if absent then [] else digits n ++ name) ++ rest) (n * size + m) := by
  split
  case isTrue hnone =>
    rw [habsent hnone, Nat.zero_mul, Nat.zero_add]
    exact h
  case isFalse =>
    rw [List.append_assoc]
    exact ⟨h.adds.whole n hunit h.not_inUnit hfits, head_digits n _⟩

theorem counts_last (n part : Nat) {places : Nat} {name : List Char}
    (hunit : IsUnit name (10 ^ places)) (hplaces : 0 < places ∧ places ≤ 9)
    (hpart : part < 10 ^ places) (hfits : n * 10 ^ places + part ≤ most) :
    Counts (digits n ++ (renderFraction places part ++ name)) (n * 10 ^ places + part) :=
  ⟨adds_last n part hunit hplaces.1 hplaces.2 hpart hfits, head_digits n _⟩

theorem counts_renderLong {n : Nat} (h : n ≤ most) : Counts (renderLong n) n := by
  have hseconds := counts_last (n / 1000000000 % 60) (n % 1000000000) isUnit_seconds (by decide)
    (Nat.mod_lt _ (by decide)) (by unfold most at h ⊢; omega)
  have hminutes := hseconds.optional (n / 1000000000 / 60 = 0) (n / 1000000000 / 60 % 60)
    isUnit_minutes (by omega) (by unfold most at h ⊢; omega)
  have hhours := hminutes.optional (n / 1000000000 / 60 / 60 = 0) (n / 1000000000 / 60 / 60)
    isUnit_hours id (by unfold most at h ⊢; omega)
  have htotal : n / 1000000000 / 60 / 60 * 3600000000000 + (n / 1000000000 / 60 % 60 * 60000000000
      + (n / 1000000000 % 60 * 10 ^ 9 + n % 1000000000)) = n := by omega
  rw [htotal] at hhours
  simpa only [renderLong, List.append_assoc] using hhours

theorem counts_renderMagnitude {n : Nat} (h : n ≤ most) : Counts (renderMagnitude n) n := by
  unfold renderMagnitude
  split_ifs with hzero hnano hmicro hmilli
  · have hnone := adds_nil.whole 0 isUnit_seconds (by simp) (by decide)
    rw [hzero]
    exact ⟨by simpa [digits_zero] using hnone, '0', ['s'], rfl, by decide⟩
  · have hwhole := adds_nil.whole n isUnit_nanoseconds (by simp) (by omega)
    exact ⟨by simpa using hwhole, head_digits _ _⟩
  · have hlast := counts_last (n / 1000) (n % 1000) isUnit_microseconds (by decide)
      (Nat.mod_lt _ (by decide)) (by omega)
    have htotal : n / 1000 * 10 ^ 3 + n % 1000 = n := by omega
    rwa [htotal, ← List.append_assoc] at hlast
  · have hlast := counts_last (n / 1000000) (n % 1000000) isUnit_milliseconds (by decide)
      (Nat.mod_lt _ (by decide)) (by omega)
    have htotal : n / 1000000 * 10 ^ 6 + n % 1000000 = n := by omega
    rwa [htotal, ← List.append_assoc] at hlast
  · exact counts_renderLong h

theorem two_le_length_renderMagnitude (n : Nat) : 2 ≤ (renderMagnitude n).length := by
  have hdigits (n : Nat) : 0 < (digits n).length := List.length_pos_iff.2 (digits_ne_nil n)
  unfold renderMagnitude renderLong
  split_ifs
  all_goals
    simp only [List.length_append, List.length_cons, List.length_nil]
    have := hdigits n
    have := hdigits (n / 1000)
    have := hdigits (n / 1000000)
    have := hdigits (n / 1000000000 % 60)
    omega

/-- **Durations are read back.** -/
theorem read?_render {n : Int} (h : 0 ≤ n) (hmost : n < most) : read? (render n) = some n := by
  have hcounts := counts_renderMagnitude (n := n.natAbs) (by unfold most at hmost ⊢; omega)
  have hlength := two_le_length_renderMagnitude n.natAbs
  have hlist : (render n).toList = renderMagnitude n.natAbs := by
    rw [render, if_neg (by omega), String.toList_ofList]
  have hmagnitude : magnitude? (renderMagnitude n.natAbs) = some n.natAbs := by
    have hsum := hcounts.adds (renderMagnitude n.natAbs).length 0 (Nat.le_refl _)
      (by unfold most at hmost ⊢; omega)
    rw [Nat.zero_add] at hsum
    unfold magnitude?
    split
    · rename_i heq
      rw [heq] at hlength
      exact absurd hlength (by decide)
    · rename_i heq
      rw [heq] at hlength
      exact absurd hlength (by decide)
    · exact hsum
  obtain ⟨c, rest, hhead, hdigit⟩ := hcounts.head
  have hpositive : read?.positive (renderMagnitude n.natAbs) = some n := by
    have hsmall : n.natAbs < most := by omega
    have habs : (n.natAbs : Int) = n := by omega
    rw [read?.positive, hmagnitude]
    simp only [hsmall, if_true, habs]
  unfold read?
  rw [hlist, hhead]
  rw [hhead] at hpositive
  split
  · rename_i heq
    rw [(List.cons.inj heq).1] at hdigit
    exact absurd hdigit (by decide)
  · rename_i heq
    rw [(List.cons.inj heq).1] at hdigit
    exact absurd hdigit (by decide)
  · exact hpositive

end Duration

end RulePlan
