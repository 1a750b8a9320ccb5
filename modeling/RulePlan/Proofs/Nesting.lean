import Mathlib.Data.List.Basic
import RulePlan.Rule.Parser

/-!
# RulePlan.Proofs.Nesting — parentheses and commas in token lists

Three functions walk over tokens and count parentheses: one checks that they match, one cuts at the
commas outside them, one looks whether the first is closed by the last token only. What each of them
means is said here with one number, the `nesting` of a list, that is, how many parentheses it leaves
open. Tokens stay in their parentheses if no front of the list has a negative nesting, and a comma
stands outside parentheses where the nesting in front of it is zero. Cutting is undone by joining,
and every piece of a balanced list is balanced; `segments_induction` is the one induction over cuts
that these facts use.
-/

namespace RulePlan.Rule

/-! ## Nesting -/

/-- By how much a token changes the number of open parentheses. -/
def turn (t : Token) : Int :=
  match t.kind with
  | .leftParen => 1
  | .rightParen => -1
  | _ => 0

/-- How many parentheses tokens leave open. -/
def nesting (ts : List Token) : Int := ts.foldr (fun t n => turn t + n) 0

/-- With `depth` parentheses open before, no token closes one that is not open. -/
def Stays (depth : Int) (ts : List Token) : Prop :=
  ∀ front, front <+: ts → 0 ≤ depth + nesting front

/-- Parentheses match. -/
def Balanced (ts : List Token) : Prop := Stays 0 ts ∧ nesting ts = 0

/-- With `depth` parentheses open before, every comma stands inside parentheses. -/
def Flat (depth : Int) (ts : List Token) : Prop :=
  ∀ front t back, ts = front ++ t :: back → t.kind = .comma → depth + nesting front ≠ 0

@[simp]
theorem nesting_nil : nesting [] = 0 := rfl

@[simp]
theorem nesting_cons (t : Token) (ts : List Token) : nesting (t :: ts) = turn t + nesting ts := rfl

@[simp]
theorem nesting_append (xs ys : List Token) : nesting (xs ++ ys) = nesting xs + nesting ys := by
  induction xs with
  | nil => rw [List.nil_append, nesting_nil, Int.zero_add]
  | cons t xs ih => rw [List.cons_append, nesting_cons, nesting_cons, ih, Int.add_assoc]

theorem turn_leftParen {t : Token} (h : t.kind = .leftParen) : turn t = 1 := by
  simp [turn, h]

theorem turn_rightParen {t : Token} (h : t.kind = .rightParen) : turn t = -1 := by
  simp [turn, h]

theorem turn_eq_zero {t : Token} (hl : t.kind ≠ .leftParen) (hr : t.kind ≠ .rightParen) :
    turn t = 0 := by
  unfold turn
  split
  · contradiction
  · contradiction
  · rfl

theorem turn_comma {t : Token} (h : t.kind = .comma) : turn t = 0 := by
  simp [turn, h]

theorem stays_nil {d : Int} : Stays d [] ↔ 0 ≤ d := by
  simp [Stays]

theorem stays_cons {d : Int} {t : Token} {ts : List Token} :
    Stays d (t :: ts) ↔ 0 ≤ d ∧ Stays (d + turn t) ts := by
  constructor
  · intro h
    refine ⟨by simpa using h [] (List.nil_prefix), fun front hfront => ?_⟩
    have hlonger := h (t :: front) (List.cons_prefix_cons.2 ⟨rfl, hfront⟩)
    rwa [nesting_cons, ← Int.add_assoc] at hlonger
  · rintro ⟨hd, h⟩ front hfront
    rcases List.prefix_cons_iff.1 hfront with rfl | ⟨rest, rfl, hrest⟩
    · simpa using hd
    · rw [nesting_cons, ← Int.add_assoc]
      exact h rest hrest

theorem stays_append {d : Int} {xs ys : List Token} :
    Stays d (xs ++ ys) ↔ Stays d xs ∧ Stays (d + nesting xs) ys := by
  induction xs generalizing d with
  | nil =>
    rw [List.nil_append, nesting_nil, Int.add_zero, stays_nil]
    refine (and_iff_right_of_imp fun h => ?_).symm
    simpa using h [] List.nil_prefix
  | cons t xs ih =>
    rw [List.cons_append, stays_cons, stays_cons, ih, nesting_cons, ← Int.add_assoc, and_assoc]

theorem flat_nil (d : Int) : Flat d [] := by
  intro front t back h
  simp at h

theorem flat_cons {d : Int} {t : Token} {ts : List Token} :
    Flat d (t :: ts) ↔ (t.kind = .comma → d ≠ 0) ∧ Flat (d + turn t) ts := by
  constructor
  · intro h
    refine ⟨fun hcomma => by simpa using h [] t ts rfl hcomma, ?_⟩
    rintro front u back rfl hcomma
    have hlonger := h (t :: front) u back rfl hcomma
    rwa [nesting_cons, ← Int.add_assoc] at hlonger
  · rintro ⟨hfirst, h⟩ front u back heq hcomma
    cases front with
    | nil =>
      obtain ⟨rfl, -⟩ := List.cons.inj heq
      simpa using hfirst hcomma
    | cons v front =>
      obtain ⟨rfl, rfl⟩ := List.cons.inj heq
      rw [nesting_cons, ← Int.add_assoc]
      exact h front u back rfl hcomma

theorem flat_append {d : Int} {xs ys : List Token} :
    Flat d (xs ++ ys) ↔ Flat d xs ∧ Flat (d + nesting xs) ys := by
  induction xs generalizing d with
  | nil => simp [flat_nil]
  | cons t xs ih =>
    rw [List.cons_append, flat_cons, flat_cons, ih, nesting_cons, ← Int.add_assoc, and_assoc]

/-- Tokens that stay in parentheses, one of which is open, have no comma outside. -/
theorem flat_of_stays {d : Int} {ts : List Token} (h : Stays d ts) : Flat (d + 1) ts := by
  rintro front t back rfl -
  have hfront := h front (List.prefix_append _ _)
  omega

/-- Without parentheses and commas there is nothing to nest or to cut. -/
theorem plain_nesting {ts : List Token}
    (h : ∀ t ∈ ts, t.kind ≠ .leftParen ∧ t.kind ≠ .rightParen ∧ t.kind ≠ .comma) :
    nesting ts = 0 ∧ (∀ d, 0 ≤ d → Stays d ts) ∧ ∀ d, Flat d ts := by
  induction ts with
  | nil => exact ⟨rfl, fun d hd => stays_nil.2 hd, flat_nil⟩
  | cons t ts ih =>
    obtain ⟨hl, hr, hc⟩ := h t List.mem_cons_self
    obtain ⟨hnest, hstays, hflat⟩ := ih fun u hu => h u (List.mem_cons_of_mem t hu)
    have hturn := turn_eq_zero hl hr
    refine ⟨by rw [nesting_cons, hturn, hnest, Int.add_zero], fun d hd => ?_, fun d => ?_⟩
    · rw [stays_cons, hturn, Int.add_zero]
      exact ⟨hd, hstays d hd⟩
    · rw [flat_cons, hturn, Int.add_zero]
      exact ⟨fun h => absurd h hc, hflat d⟩

theorem balanced_nil : Balanced [] := ⟨stays_nil.2 (Int.le_refl 0), rfl⟩

theorem balanced_singleton {t : Token} (h : turn t = 0) : Balanced [t] := by
  refine ⟨stays_cons.2 ⟨Int.le_refl 0, stays_nil.2 ?_⟩, ?_⟩
  · rw [h]
    exact Int.le_refl 0
  · rw [nesting_cons, h, nesting_nil, Int.add_zero]

theorem Balanced.append {xs ys : List Token} (hx : Balanced xs) (hy : Balanced ys) :
    Balanced (xs ++ ys) := by
  refine ⟨stays_append.2 ⟨hx.1, ?_⟩, ?_⟩
  · rw [hx.2, Int.add_zero]
    exact hy.1
  · rw [nesting_append, hx.2, hy.2, Int.add_zero]

/-! ## The check of parentheses -/

theorem balance_eq_ok_iff {d : Nat} {ts : List Token} :
    balance d ts = .ok () ↔ Stays d ts ∧ (d : Int) + nesting ts = 0 := by
  induction ts generalizing d with
  | nil =>
    rw [balance, stays_nil, nesting_nil, Int.add_zero]
    split
    case isTrue h => exact iff_of_true rfl (by omega)
    case isFalse h => exact iff_of_false nofun (by omega)
  | cons t ts ih =>
    rw [stays_cons, nesting_cons, ← Int.add_assoc]
    unfold balance
    split
    case h_1 hk =>
      rw [ih, turn_leftParen hk]
      push_cast
      rw [and_iff_right (Int.natCast_nonneg d)]
    case h_2 hk =>
      rw [turn_rightParen hk]
      cases d with
      | zero =>
        refine iff_of_false nofun fun h => ?_
        -- one more closed than open: the nesting after this token is negative
        have hneg := h.1.2 [] List.nil_prefix
        simp at hneg
      | succ d =>
        show balance d ts = .ok () ↔ _
        rw [ih, show ((d + 1 : Nat) : Int) + -1 = d by omega, and_iff_right (Int.natCast_nonneg _)]
    case h_3 hl hr =>
      rw [ih, turn_eq_zero hl hr, Int.add_zero, and_iff_right (Int.natCast_nonneg d)]

/-! ## Cutting at commas -/

theorem segments_cons (d : Int) (t : Token) (ts : List Token) :
    segments d (t :: ts)
      = if t.kind = .comma ∧ d = 0 then [] :: segments 0 ts
        else prepend t (segments (d + turn t) ts) := by
  rw [segments]
  split
  case h_1 hk => rw [turn_leftParen hk, if_neg (by simp [hk])]
  case h_2 hk => rw [turn_rightParen hk, if_neg (by simp [hk])]; rfl
  case h_3 hk =>
    rw [turn_comma hk, Int.add_zero]
    split
    case isTrue hd => rw [if_pos ⟨hk, hd⟩, hd]
    case isFalse hd => rw [if_neg fun h => hd h.2]
  case h_4 hl hr hc => rw [turn_eq_zero hl hr, Int.add_zero, if_neg fun h => hc h.1]

/-- Tokens without a comma outside parentheses are one piece. -/
theorem segments_of_flat {d : Int} {ts : List Token} (h : Flat d ts) : segments d ts = [ts] := by
  induction ts generalizing d with
  | nil => rfl
  | cons t ts ih =>
    obtain ⟨hfirst, hrest⟩ := flat_cons.1 h
    rw [segments_cons, if_neg fun hc => hfirst hc.1 hc.2, ih hrest]
    rfl

/-- A comma outside parentheses ends the first piece. -/
theorem segments_append_comma {d : Int} {s rest : List Token} {c : Token} (h : Flat d s)
    (hd : d + nesting s = 0) (hc : c.kind = .comma) :
    segments d (s ++ c :: rest) = s :: segments 0 rest := by
  induction s generalizing d with
  | nil =>
    rw [nesting_nil, Int.add_zero] at hd
    rw [List.nil_append, segments_cons, if_pos ⟨hc, hd⟩]
  | cons t s ih =>
    obtain ⟨hfirst, hrest⟩ := flat_cons.1 h
    rw [nesting_cons, ← Int.add_assoc] at hd
    rw [List.cons_append, segments_cons, if_neg fun hc => hfirst hc.1 hc.2, ih hrest hd]
    rfl

/-- Tokens are one piece, or a comma outside parentheses ends their first piece. -/
theorem flat_or_exists_comma (d : Int) (ts : List Token) :
    Flat d ts ∨ ∃ s c rest, ts = s ++ c :: rest ∧ c.kind = .comma ∧ Flat d s
      ∧ d + nesting s = 0 := by
  induction ts generalizing d with
  | nil => exact .inl (flat_nil d)
  | cons t ts ih =>
    by_cases hcut : t.kind = .comma ∧ d = 0
    · exact .inr ⟨[], t, ts, rfl, hcut.1, flat_nil d, by simpa using hcut.2⟩
    · have hfirst : t.kind = .comma → d ≠ 0 := fun hk hd => hcut ⟨hk, hd⟩
      rcases ih (d + turn t) with hflat | ⟨s, c, rest, rfl, hc, hflat, hd⟩
      · exact .inl (flat_cons.2 ⟨hfirst, hflat⟩)
      · refine .inr ⟨t :: s, c, rest, rfl, hc, flat_cons.2 ⟨hfirst, hflat⟩, ?_⟩
        rwa [nesting_cons, ← Int.add_assoc]

/-- Induction over the pieces of a list: one piece, or a first piece, a comma and the pieces of the
rest. -/
theorem segments_induction {P : List Token → List (List Token) → Prop}
    (one : ∀ ts, Flat 0 ts → P ts [ts])
    (more : ∀ s c rest, c.kind = .comma → Flat 0 s → nesting s = 0 → P rest (segments 0 rest) →
      P (s ++ c :: rest) (s :: segments 0 rest)) (ts : List Token) : P ts (segments 0 ts) := by
  induction hn : ts.length using Nat.strongRecOn generalizing ts with
  | ind n ih =>
    subst hn
    rcases flat_or_exists_comma 0 ts with hflat | ⟨s, c, rest, rfl, hc, hflat, hd⟩
    · rw [segments_of_flat hflat]
      exact one ts hflat
    · rw [Int.zero_add] at hd
      rw [segments_append_comma hflat (by rwa [Int.zero_add]) hc]
      refine more s c rest hc hflat hd (ih rest.length ?_ rest rfl)
      rw [List.length_append, List.length_cons]
      omega

theorem segments_ne_nil (ts : List Token) : segments 0 ts ≠ [] :=
  segments_induction (P := fun _ ss => ss ≠ []) (fun _ _ => by simp) (fun _ _ _ _ _ _ _ => by simp)
    ts

/-- No piece has a comma outside parentheses, and its tokens come from the list. -/
theorem flat_of_mem_segments (ts : List Token) :
    ∀ s ∈ segments 0 ts, Flat 0 s ∧ ∀ t ∈ s, t ∈ ts := by
  refine segments_induction (P := fun ts ss => ∀ s ∈ ss, Flat 0 s ∧ ∀ t ∈ s, t ∈ ts) ?_ ?_ ts
  · intro ts hflat s hs
    rw [List.mem_singleton.1 hs]
    exact ⟨hflat, fun t ht => ht⟩
  · intro s c rest _ hflat _ ih u hu
    rcases List.mem_cons.1 hu with rfl | hu
    · exact ⟨hflat, fun t ht => List.mem_append_left _ ht⟩
    · obtain ⟨huflat, hmem⟩ := ih u hu
      exact ⟨huflat, fun t ht => List.mem_append_right _ (List.mem_cons_of_mem c (hmem t ht))⟩

/-- The pieces of a balanced list are balanced. -/
theorem balanced_of_mem_segments (ts : List Token) :
    Balanced ts → ∀ s ∈ segments 0 ts, Balanced s := by
  refine segments_induction (P := fun ts ss => Balanced ts → ∀ s ∈ ss, Balanced s) ?_ ?_ ts
  · intro ts _ hbalanced s hs
    rwa [List.mem_singleton.1 hs]
  · intro s c rest hc _ hzero ih hbalanced u hu
    obtain ⟨hstays, hnest⟩ := hbalanced
    rw [stays_append, stays_cons, hzero, turn_comma hc] at hstays
    rw [nesting_append, nesting_cons, hzero, turn_comma hc] at hnest
    rcases List.mem_cons.1 hu with rfl | hu
    · exact ⟨hstays.1, hzero⟩
    · refine ih ⟨by simpa using hstays.2.2, by simpa using hnest⟩ u hu

/-- Joining balanced pieces by commas and cutting gives the pieces back. -/
theorem segments_intercalate {c : Token} (hc : c.kind = .comma) {ss : List (List Token)}
    (hne : ss ≠ []) (h : ∀ s ∈ ss, Flat 0 s ∧ nesting s = 0) :
    segments 0 ([c].intercalate ss) = ss := by
  induction ss with
  | nil => exact absurd rfl hne
  | cons s ss ih =>
    obtain ⟨hflat, hzero⟩ := h s List.mem_cons_self
    cases ss with
    | nil =>
      rw [List.intercalate_singleton]
      exact segments_of_flat hflat
    | cons u us =>
      rw [List.intercalate_cons_cons, List.append_assoc, List.singleton_append,
        segments_append_comma hflat (by rwa [Int.zero_add]) hc,
        ih (List.cons_ne_nil u us) fun v hv => h v (List.mem_cons_of_mem s hv)]

/-! ## Parentheses that span a list -/

/-- The first parenthesis is closed by the last token iff what lies between stays inside. -/
theorem closesLast_iff {d : Nat} {inner : List Token} {c : Token} (hc : c.kind = .rightParen) :
    closesLast (d + 1) (inner ++ [c]) = true ↔ Stays d inner := by
  induction inner generalizing d with
  | nil =>
    rw [List.nil_append, closesLast, hc, stays_nil]
    simp [closesLast]
  | cons t inner ih =>
    rw [List.cons_append, closesLast, stays_cons, and_iff_right (Int.natCast_nonneg d)]
    split
    case h_1 hk =>
      rw [ih, turn_leftParen hk]
      push_cast
      rfl
    case h_2 hk =>
      rw [turn_rightParen hk]
      cases d with
      | zero =>
        rw [if_pos ⟨Nat.le_refl 1, by simp⟩]
        refine iff_of_false nofun fun h => ?_
        have hneg := h [] List.nil_prefix
        simp at hneg
      | succ d =>
        rw [if_neg (by omega), Nat.add_sub_cancel, ih,
          show ((d + 1 : Nat) : Int) + -1 = d by omega]
    case h_3 hl hr => rw [ih, turn_eq_zero hl hr, Int.add_zero]

/-- The shape of an atom: a name, and parentheses around all the rest. -/
theorem atomShape?_eq_some_iff {ts inner : List Token} {name : String} :
    atomShape? ts = some (name, inner) ↔
      ∃ n p c, ts = n :: p :: (inner ++ [c]) ∧ n.kind = .ident ∧ n.value = name
        ∧ p.kind = .leftParen ∧ c.kind = .rightParen ∧ Stays 0 inner := by
  constructor
  · intro h
    unfold atomShape? at h
    split at h
    case h_2 => cases h
    case h_1 n p rest =>
      split at h
      case isFalse => cases h
      case isTrue hshape =>
        obtain ⟨hn, hp, hlast, hcloses⟩ := hshape
        obtain ⟨rfl, rfl⟩ := Prod.mk.inj (Option.some.inj h)
        obtain ⟨c, hget, hc⟩ := Option.map_eq_some_iff.1 hlast
        obtain ⟨inner, rfl⟩ := List.getLast?_eq_some_iff.1 hget
        refine ⟨n, p, c, ?_, hn, rfl, hp, hc, ?_⟩
        · rw [List.dropLast_concat]
        · rw [List.dropLast_concat]
          exact (closesLast_iff (d := 0) hc).1 hcloses
  · rintro ⟨n, p, c, rfl, hn, rfl, hp, hc, hstays⟩
    have hcloses : closesLast 1 (inner ++ [c]) = true := (closesLast_iff (d := 0) hc).2 hstays
    simp [atomShape?, hn, hp, hc, hcloses]

end RulePlan.Rule
