import RulePlan.Proofs.Acceptance
import RulePlan.Proofs.RuleGrammar

/-!
# RulePlan.Proofs.ElementParsing — arguments, atoms and body elements are read as their forms

For each function that reads a part of a rule, one equivalence says that it succeeds exactly on the
tokens of a valid form, and with what the form denotes. An argument is read with a count of the
anonymous variables before it, or without one in a head, where there are none. An element is read
from a piece between two commas: its shape decides first whether it is a literal, then whether it is
an assignment, and only what is neither can be a test. None of this looks at the places of tokens.
-/

namespace RulePlan

namespace Token

open Grammar

theorem kind_unplaced (t : Token) : t.unplaced.kind = t.kind := rfl

theorem text_unplaced (t : Token) : t.unplaced.text = t.text := by
  unfold unplaced
  rw [text]
  split <;> simp_all [text]

theorem unplaced_eq_iff {t : Token} {k : Kind} {s : String} :
    t.unplaced = ⟨k, s, 0, 0⟩ ↔ t.kind = k ∧ t.text = s := by
  unfold unplaced
  simp

/-- A kind that leaves its spelling open is known with that spelling. -/
theorem unplaced_eq_open_iff {t : Token} {k : Kind} {s : String}
    (hk : k = .ident ∨ k = .int ∨ k = .op) :
    t.unplaced = ⟨k, s, 0, 0⟩ ↔ t.kind = k ∧ t.value = s := by
  rw [unplaced_eq_iff]
  refine and_congr_right fun h => ?_
  rcases hk with rfl | rfl | rfl <;> simp [text, h]

theorem unplaced_eq_ident_iff {t : Token} {s : String} :
    t.unplaced = ident s ↔ t.kind = .ident ∧ t.value = s :=
  unplaced_eq_open_iff (.inl rfl)

theorem unplaced_eq_int_iff {t : Token} {s : String} :
    t.unplaced = int s ↔ t.kind = .int ∧ t.value = s :=
  unplaced_eq_open_iff (.inr (.inl rfl))

theorem unplaced_eq_op_iff {t : Token} {s : String} :
    t.unplaced = op s ↔ t.isOp s = true := by
  rw [op, unplaced_eq_open_iff (.inr (.inr rfl))]
  simp [isOp]

/-- A kind with one spelling is known by itself. -/
theorem unplaced_eq_fixed_iff {t : Token} {k : Kind} {s : String}
    (hk : ∀ u : Token, u.kind = k → u.text = s) : t.unplaced = ⟨k, s, 0, 0⟩ ↔ t.kind = k := by
  rw [unplaced_eq_iff]
  exact and_iff_left_of_imp (hk t)

theorem unplaced_eq_leftParen_iff {t : Token} : t.unplaced = leftParen ↔ t.kind = .leftParen :=
  unplaced_eq_fixed_iff fun u h => by simp [text, h]

theorem unplaced_eq_rightParen_iff {t : Token} :
    t.unplaced = rightParen ↔ t.kind = .rightParen :=
  unplaced_eq_fixed_iff fun u h => by simp [text, h]

theorem unplaced_eq_comma_iff {t : Token} : t.unplaced = comma ↔ t.kind = .comma :=
  unplaced_eq_fixed_iff fun u h => by simp [text, h]

theorem unplaced_eq_implies_iff {t : Token} : t.unplaced = implies ↔ t.kind = .implies :=
  unplaced_eq_fixed_iff fun u h => by simp [text, h]

theorem unplaced_eq_dot_iff {t : Token} : t.unplaced = dot ↔ t.kind = .dot :=
  unplaced_eq_fixed_iff fun u h => by simp [text, h]

theorem unplaced_eq_negation_iff {t : Token} : t.unplaced = negation ↔ t.kind = .not :=
  unplaced_eq_fixed_iff fun u h => by simp [text, h]

theorem isComparison_unplaced (t : Token) : t.unplaced.isComparison = t.isComparison := by
  by_cases h : t.kind = .op
  · simp [isComparison, unplaced, text, h]
  · have hkind : (t.kind == .op) = false := beq_eq_false_iff_ne.2 h
    simp [isComparison, unplaced, hkind]

theorem turn_unplaced (t : Token) : Rule.turn t.unplaced = Rule.turn t := rfl

end Token

/-! ## Pieces without places -/

namespace Rule

open Grammar Token

theorem nesting_map_unplaced (ts : List Token) : nesting (ts.map unplaced) = nesting ts := by
  unfold nesting
  rw [List.foldr_map]
  rfl

theorem stays_map_unplaced {d : Int} {ts : List Token} :
    Stays d (ts.map unplaced) ↔ Stays d ts := by
  induction ts generalizing d with
  | nil => rfl
  | cons t ts ih => rw [List.map_cons, stays_cons, stays_cons, ih, turn_unplaced]

theorem flat_map_unplaced {d : Int} {ts : List Token} :
    Flat d (ts.map unplaced) ↔ Flat d ts := by
  induction ts generalizing d with
  | nil => rfl
  | cons t ts ih => rw [List.map_cons, flat_cons, flat_cons, ih, turn_unplaced, kind_unplaced]

theorem balanced_map_unplaced {ts : List Token} : Balanced (ts.map unplaced) ↔ Balanced ts := by
  unfold Balanced
  rw [stays_map_unplaced, nesting_map_unplaced]

theorem isPiece_map_unplaced {ts : List Token} : IsPiece (ts.map unplaced) ↔ IsPiece ts := by
  constructor
  · rintro ⟨hbalanced, hflat, hinner⟩
    refine ⟨balanced_map_unplaced.1 hbalanced, flat_map_unplaced.1 hflat, fun t ht => ?_⟩
    exact hinner t.unplaced (List.mem_map.2 ⟨t, ht, rfl⟩)
  · rintro ⟨hbalanced, hflat, hinner⟩
    refine ⟨balanced_map_unplaced.2 hbalanced, flat_map_unplaced.2 hflat, fun u hu => ?_⟩
    obtain ⟨t, ht, rfl⟩ := List.mem_map.1 hu
    exact hinner t ht

/-- Cutting does not look at places. -/
theorem segments_map_unplaced (ts : List Token) :
    segments 0 (ts.map unplaced) = (segments 0 ts).map (List.map unplaced) := by
  refine segments_induction
    (P := fun ts ss => segments 0 (ts.map unplaced) = ss.map (List.map unplaced)) ?_ ?_ ts
  · intro ts hflat
    exact segments_of_flat (flat_map_unplaced.2 hflat)
  · intro s c rest hc hflat hzero ih
    have hcomma : c.unplaced.kind = .comma := hc
    have hdepth : 0 + nesting (s.map unplaced) = 0 := by
      rw [nesting_map_unplaced, hzero, Int.add_zero]
    rw [List.map_append, List.map_cons, List.map_cons,
      segments_append_comma (flat_map_unplaced.2 hflat) hdepth hcomma, ih]

/-- Joining the pieces of a list gives it back. -/
theorem joined_segments (ts : List Token) :
    joined ((segments 0 ts).map (List.map unplaced)) = ts.map unplaced := by
  refine segments_induction
    (P := fun ts ss => joined (ss.map (List.map unplaced)) = ts.map unplaced) ?_ ?_ ts
  · intro ts _
    exact List.intercalate_singleton
  · intro s c rest hc _ _ ih
    have hcomma : c.unplaced = comma := unplaced_eq_comma_iff.2 hc
    rw [List.map_append, List.map_cons (f := unplaced), hcomma, ← ih]
    obtain ⟨u, us, hsegments⟩ := List.exists_cons_of_ne_nil (segments_ne_nil rest)
    rw [hsegments, List.map_cons, List.map_cons, joined, List.intercalate_cons_cons, joined,
      List.append_assoc, List.singleton_append]

/-! ## Arguments and atoms -/

theorem readInt64?_false_eq_some_iff {ds : List Char} {v : Int64} :
    Text.Decimal.readInt64? false ds = some v ↔
      (Text.Decimal.value ds : Int) ≤ 9223372036854775807
        ∧ v = Int64.ofInt (Text.Decimal.value ds) := by
  have hpos : (0 : Int) ≤ Text.Decimal.value ds := Int.natCast_nonneg _
  unfold Text.Decimal.readInt64?
  simp only [Bool.false_eq_true, if_false]
  split
  case isTrue h => simp [h.2, eq_comm]
  case isFalse h =>
    refine iff_of_false nofun fun hv => h ⟨?_, hv.1⟩
    omega

theorem readInt64?_true_eq_some_iff {ds : List Char} {v : Int64} :
    Text.Decimal.readInt64? true ds = some v ↔
      -9223372036854775808 ≤ -(Text.Decimal.value ds : Int)
        ∧ v = Int64.ofInt (-(Text.Decimal.value ds : Int)) := by
  have hpos : (0 : Int) ≤ Text.Decimal.value ds := Int.natCast_nonneg _
  unfold Text.Decimal.readInt64?
  simp only [if_true]
  split
  case isTrue h => simp [h.1, eq_comm]
  case isFalse h =>
    refine iff_of_false nofun fun hv => h ⟨hv.1, ?_⟩
    omega

/-- An argument is read with a count of anonymous variables, or in a head, where there are none. -/
def Reads (fresh : Option Nat) (x : ArgForm) : Prop :=
  x.Valid ∧ (fresh = none → x ≠ .name "_")

/-- A single token is read as a name or a number. -/
theorem exists_form_of_readArgument {fresh f : Option Nat} {t : Token} {a : Argument}
    (h : readArgument fresh [t] = .ok (a, f)) :
    ∃ x : ArgForm, [t].map unplaced = x.tokens ∧ Reads fresh x ∧ a = (x.denote (fresh.getD 0)).1
      ∧ f = fresh.map fun n => (x.denote n).2 := by
  unfold readArgument at h
  dsimp only at h
  split at h
  · next hk =>
    have htoken : t.unplaced = ident t.value := unplaced_eq_ident_iff.2 ⟨hk, rfl⟩
    refine ⟨.name t.value, by rw [List.map_singleton, htoken]; rfl, ?_⟩
    split at h
    · next hvalue =>
      cases fresh with
      | none => cases h
      | some n =>
        obtain ⟨rfl, rfl⟩ := Prod.mk.inj (Except.ok.inj h)
        simp [Reads, ArgForm.Valid, ArgForm.denote, hvalue]
    · next hvalue =>
      obtain ⟨rfl, rfl⟩ := Prod.mk.inj (Except.ok.inj h)
      simp [Reads, ArgForm.Valid, ArgForm.denote, hvalue]
  · next hk =>
    have htoken : t.unplaced = int t.value := unplaced_eq_int_iff.2 ⟨hk, rfl⟩
    split at h
    · next v hv =>
      obtain ⟨rfl, rfl⟩ := Prod.mk.inj (Except.ok.inj h)
      obtain ⟨hrange, rfl⟩ := readInt64?_false_eq_some_iff.1 hv
      refine ⟨.number t.value, by rw [List.map_singleton, htoken]; rfl, ⟨hrange, nofun⟩, rfl, ?_⟩
      simp [ArgForm.denote]
    · cases h
  · cases h

/-- Two tokens are read as a minus sign and a number. -/
theorem exists_negative_of_readArgument {fresh f : Option Nat} {t u : Token} {a : Argument}
    (h : readArgument fresh [t, u] = .ok (a, f)) :
    ∃ x : ArgForm, [t, u].map unplaced = x.tokens ∧ Reads fresh x
      ∧ a = (x.denote (fresh.getD 0)).1 ∧ f = fresh.map fun n => (x.denote n).2 := by
  unfold readArgument at h
  dsimp only at h
  split at h
  · next hminus =>
    obtain ⟨hop, hk⟩ := hminus
    have hfirst : t.unplaced = op "-" := unplaced_eq_op_iff.2 hop
    have hsecond : u.unplaced = int u.value := unplaced_eq_int_iff.2 ⟨hk, rfl⟩
    split at h
    · next v hv =>
      obtain ⟨rfl, rfl⟩ := Prod.mk.inj (Except.ok.inj h)
      obtain ⟨hrange, rfl⟩ := readInt64?_true_eq_some_iff.1 hv
      refine ⟨.negative u.value, ?_, ⟨hrange, nofun⟩, rfl, ?_⟩
      · rw [List.map_cons, List.map_singleton, hfirst, hsecond]
        rfl
      · simp [ArgForm.denote]
    · cases h
  · cases h

/-- The tokens of a form that may be read are. -/
theorem readArgument_of_reads {fresh : Option Nat} {ts : List Token} {x : ArgForm}
    (htokens : ts.map unplaced = x.tokens) (hreads : Reads fresh x) :
    readArgument fresh ts
      = .ok ((x.denote (fresh.getD 0)).1, fresh.map fun n => (x.denote n).2) := by
  obtain ⟨hvalid, hnamed⟩ := hreads
  cases x with
  | name s =>
    obtain ⟨t, rfl, ht⟩ := List.map_eq_singleton_iff.1 htokens
    obtain ⟨hk, rfl⟩ := unplaced_eq_ident_iff.1 ht
    by_cases hvalue : t.value = "_"
    · cases fresh with
      | none => exact absurd (congrArg ArgForm.name hvalue) (hnamed rfl)
      | some n => simp [readArgument, hk, hvalue, ArgForm.denote]
    · cases fresh <;> simp [readArgument, hk, hvalue, ArgForm.denote]
  | number digits =>
    obtain ⟨t, rfl, ht⟩ := List.map_eq_singleton_iff.1 htokens
    obtain ⟨hk, rfl⟩ := unplaced_eq_int_iff.1 ht
    have hread := readInt64?_false_eq_some_iff.2 ⟨hvalid, rfl⟩
    cases fresh <;> simp [readArgument, hk, hread, ArgForm.denote]
  | negative digits =>
    obtain ⟨t, rest, rfl, ht, hrest⟩ := List.map_eq_cons_iff.1 htokens
    obtain ⟨u, rfl, hu⟩ := List.map_eq_singleton_iff.1 hrest
    have hsign : t.isOp "-" = true := unplaced_eq_op_iff.1 ht
    obtain ⟨hk, rfl⟩ := unplaced_eq_int_iff.1 hu
    have hread := readInt64?_true_eq_some_iff.2 ⟨hvalid, rfl⟩
    cases fresh <;> simp [readArgument, hk, hsign, hread, ArgForm.denote]

theorem readArgument_eq_ok_iff {fresh f : Option Nat} {ts : List Token} {a : Argument} :
    readArgument fresh ts = .ok (a, f) ↔
      ∃ x : ArgForm, ts.map unplaced = x.tokens ∧ Reads fresh x
        ∧ a = (x.denote (fresh.getD 0)).1 ∧ f = fresh.map fun n => (x.denote n).2 := by
  constructor
  · intro h
    match ts with
    | [] => cases h
    | [t] => exact exists_form_of_readArgument h
    | [t, u] => exact exists_negative_of_readArgument h
    | _ :: _ :: _ :: _ => cases h
  · rintro ⟨x, htokens, hreads, rfl, rfl⟩
    exact readArgument_of_reads htokens hreads

/-- Only an anonymous variable changes the count. -/
theorem denote_snd_of_named {x : ArgForm} (h : x ≠ .name "_") (n : Nat) : (x.denote n).2 = n := by
  cases x with
  | name s =>
    have hs : s ≠ "_" := fun hs => h (congrArg ArgForm.name hs)
    rw [ArgForm.denote, if_neg hs]
  | number digits => rfl
  | negative digits => rfl

/-- What an argument leaves of the count does not change which arguments may follow. -/
theorem reads_after_iff {fresh : Option Nat} {x y : ArgForm} :
    Reads (fresh.map fun n => (x.denote n).2) y ↔ Reads fresh y := by
  cases fresh <;> simp [Reads]

theorem getD_after_of_reads {fresh : Option Nat} {x : ArgForm} (h : Reads fresh x) :
    (fresh.map fun n => (x.denote n).2).getD 0 = (x.denote (fresh.getD 0)).2 := by
  cases fresh with
  | none => exact (denote_snd_of_named (h.2 rfl) 0).symm
  | some n => rfl

theorem readArguments_eq_ok_iff {fresh f : Option Nat} {ss : List (List Token)}
    {args : List Argument} :
    readArguments fresh ss = .ok (args, f) ↔
      ∃ xs : List ArgForm, ss.map (List.map unplaced) = xs.map ArgForm.tokens
        ∧ (∀ x ∈ xs, Reads fresh x) ∧ args = (denoteArgs (fresh.getD 0) xs).1
        ∧ f = fresh.map fun n => (denoteArgs n xs).2 := by
  induction ss generalizing fresh f args with
  | nil =>
    rw [readArguments]
    constructor
    · intro h
      obtain ⟨rfl, rfl⟩ := Prod.mk.inj (Except.ok.inj h)
      refine ⟨[], rfl, by simp, rfl, ?_⟩
      cases fresh <;> rfl
    · rintro ⟨xs, htokens, -, rfl, rfl⟩
      obtain rfl := List.map_eq_nil_iff.1 htokens.symm
      cases fresh <;> rfl
  | cons s ss ih =>
    rw [readArguments]
    constructor
    · intro h
      obtain ⟨⟨a, f₁⟩, hfirst, h⟩ := bind_eq_ok_iff.1 h
      obtain ⟨⟨as, f₂⟩, hrest, h⟩ := bind_eq_ok_iff.1 h
      obtain ⟨rfl, rfl⟩ := Prod.mk.inj (Except.ok.inj h)
      obtain ⟨x, hx, hreads, rfl, rfl⟩ := readArgument_eq_ok_iff.1 hfirst
      obtain ⟨xs, hxs, hall, rfl, rfl⟩ := ih.1 hrest
      refine ⟨x :: xs, by rw [List.map_cons, List.map_cons, hx, hxs], ?_, ?_, ?_⟩
      · intro y hy
        rcases List.mem_cons.1 hy with rfl | hy
        · exact hreads
        · exact reads_after_iff.1 (hall y hy)
      · rw [getD_after_of_reads hreads]
        rfl
      · rw [Option.map_map]
        rfl
    · rintro ⟨xs, htokens, hall, rfl, rfl⟩
      obtain ⟨x, xs, rfl, hx, hxs⟩ := List.map_eq_cons_iff.1 htokens.symm
      have hreads := hall x List.mem_cons_self
      refine bind_eq_ok_iff.2 ⟨_, readArgument_eq_ok_iff.2 ⟨x, hx.symm, hreads, rfl, rfl⟩, ?_⟩
      refine bind_eq_ok_iff.2 ⟨_, ih.2 ⟨xs, hxs.symm, ?_, rfl, rfl⟩, ?_⟩
      · intro y hy
        exact reads_after_iff.2 (hall y (List.mem_cons_of_mem x hy))
      · rw [getD_after_of_reads hreads, Option.map_map]
        rfl

/-- The shape of an atom, places aside. -/
theorem map_unplaced_eq_call_iff {ts inner : List Token} {name : String} :
    ts.map unplaced = ident name :: leftParen :: (inner ++ [rightParen]) ↔
      ∃ n p body c, ts = n :: p :: (body ++ [c]) ∧ n.kind = .ident ∧ n.value = name
        ∧ p.kind = .leftParen ∧ c.kind = .rightParen ∧ body.map unplaced = inner := by
  constructor
  · intro h
    obtain ⟨n, rest, rfl, hn, h⟩ := List.map_eq_cons_iff.1 h
    obtain ⟨p, rest, rfl, hp, h⟩ := List.map_eq_cons_iff.1 h
    obtain ⟨body, last, rfl, hbody, hlast⟩ := List.map_eq_append_iff.1 h
    obtain ⟨c, rfl, hc⟩ := List.map_eq_singleton_iff.1 hlast
    obtain ⟨hident, hname⟩ := unplaced_eq_ident_iff.1 hn
    exact ⟨n, p, body, c, rfl, hident, hname, unplaced_eq_leftParen_iff.1 hp,
      unplaced_eq_rightParen_iff.1 hc, hbody⟩
  · rintro ⟨n, p, body, c, rfl, hn, hname, hp, hc, hbody⟩
    rw [List.map_cons, List.map_cons, List.map_append, List.map_singleton, hbody,
      unplaced_eq_ident_iff.2 ⟨hn, hname⟩, unplaced_eq_leftParen_iff.2 hp,
      unplaced_eq_rightParen_iff.2 hc]

/-- Tokens have the shape of an atom if parentheses stay matched between the outer two. -/
theorem exists_atomShape?_iff {ts inner : List Token} {name : String} :
    (∃ body, atomShape? ts = some (name, body) ∧ body.map unplaced = inner) ↔
      ts.map unplaced = ident name :: leftParen :: (inner ++ [rightParen]) ∧ Stays 0 inner := by
  rw [map_unplaced_eq_call_iff]
  constructor
  · rintro ⟨body, hshape, rfl⟩
    obtain ⟨n, p, c, rfl, hn, hname, hp, hc, hstays⟩ := atomShape?_eq_some_iff.1 hshape
    exact ⟨⟨n, p, body, c, rfl, hn, hname, hp, hc, rfl⟩, stays_map_unplaced.2 hstays⟩
  · rintro ⟨⟨n, p, body, c, rfl, hn, hname, hp, hc, rfl⟩, hstays⟩
    exact ⟨body, atomShape?_eq_some_iff.2
      ⟨n, p, c, rfl, hn, hname, hp, hc, stays_map_unplaced.1 hstays⟩, rfl⟩

theorem readAtom_eq_ok_iff {fresh f : Option Nat} {ts : List Token} {a : Atom} :
    readAtom fresh ts = .ok (a, f) ↔
      ∃ x : AtomForm, ts.map unplaced = x.tokens ∧ (∀ y ∈ x.args, Reads fresh y)
        ∧ a = (x.denote (fresh.getD 0)).1 ∧ f = fresh.map fun n => (x.denote n).2 := by
  constructor
  · intro h
    unfold readAtom at h
    split at h
    · next name hshape =>
      obtain ⟨rfl, rfl⟩ := Prod.mk.inj (Except.ok.inj h)
      have hcall := (exists_atomShape?_iff.1 ⟨_, hshape, rfl⟩).1
      refine ⟨⟨name, []⟩, hcall, by simp, rfl, ?_⟩
      cases fresh <;> rfl
    · next name inner _ hshape =>
      obtain ⟨⟨args, f'⟩, hargs, h⟩ := bind_eq_ok_iff.1 h
      obtain ⟨rfl, rfl⟩ := Prod.mk.inj (Except.ok.inj h)
      have hcall := (exists_atomShape?_iff.1 ⟨_, hshape, rfl⟩).1
      obtain ⟨xs, hxs, hreads, rfl, rfl⟩ := readArguments_eq_ok_iff.1 hargs
      refine ⟨⟨name, xs⟩, ?_, hreads, rfl, rfl⟩
      -- what was cut at its commas is joined again
      rw [hcall, ← joined_segments, hxs]
      rfl
    · split at h <;> cases h
  · rintro ⟨⟨name, xs⟩, htokens, hreads, rfl, rfl⟩
    obtain ⟨inner, hshape, hinner⟩ :=
      exists_atomShape?_iff.2 ⟨htokens, (balanced_args xs).1⟩
    -- `p()` has no arguments, though cutting nothing would give one empty piece
    cases inner with
    | nil =>
      obtain rfl := joined_args_eq_nil_iff.1 hinner.symm
      unfold readAtom
      rw [hshape]
      cases fresh <;> rfl
    | cons t ts =>
      have hne : xs ≠ [] := by
        rintro rfl
        cases hinner
      have hcut : (segments 0 (t :: ts)).map (List.map unplaced) = xs.map ArgForm.tokens := by
        rw [← segments_map_unplaced, hinner, segments_args hne]
      have hargs := readArguments_eq_ok_iff.2 ⟨xs, hcut, hreads, rfl, rfl⟩
      unfold readAtom
      rw [hshape]
      exact bind_eq_ok_iff.2 ⟨_, hargs, rfl⟩

/-! ## Expressions -/

theorem tight_unplaced (t u : Token) :
    Expression.tight t.unplaced u.unplaced = Expression.tight t u := rfl

theorem spellAfter_map_unplaced (t : Token) (ts : List Token) :
    Expression.spellAfter t.unplaced (ts.map unplaced) = Expression.spellAfter t ts := by
  induction ts generalizing t with
  | nil => rfl
  | cons u us ih =>
    rw [List.map_cons, Expression.spellAfter, Expression.spellAfter, ih, tight_unplaced,
      text_unplaced]

theorem spell_map_unplaced (ts : List Token) :
    Expression.spell (ts.map unplaced) = Expression.spell ts := by
  cases ts with
  | nil => rfl
  | cons t ts =>
    rw [List.map_cons, Expression.spell, Expression.spell, spellAfter_map_unplaced, text_unplaced]

theorem piece_unplaced (reads : List String) (t : Token) :
    Expression.Piece.ofToken reads t.unplaced = Expression.Piece.ofToken reads t := by
  unfold Expression.Piece.ofToken
  rw [text_unplaced, kind_unplaced]
  by_cases h : t.kind = .ident
  · simp [unplaced, Token.text, h]
  · have hkind : (t.kind == .ident) = false := beq_eq_false_iff_ne.2 h
    rw [hkind, Bool.false_and, Bool.false_and]

/-- An expression does not depend on the places of its tokens. -/
theorem ofTokens?_map_unplaced (ts : List Token) :
    Expression.ofTokens? (ts.map unplaced) = Expression.ofTokens? ts := by
  have hpieces : ∀ reads, (ts.map unplaced).map (Expression.Piece.ofToken reads)
      = ts.map (Expression.Piece.ofToken reads) := by
    intro reads
    rw [List.map_map]
    exact List.map_congr_left fun t _ => piece_unplaced reads t
  unfold Expression.ofTokens?
  simp only [spell_map_unplaced, hpieces]

theorem ofTokens?_nil : Expression.ofTokens? [] = none := by
  have hcut : Expression.Lexeme.ofChars? [] = some [] := by
    unfold Expression.Lexeme.ofChars?
    rfl
  have hnone : Expression.expression 4 0 [] = none := by
    unfold Expression.expression Expression.primary
    rfl
  have hread : Expression.read? "" = none := by simp [Expression.read?, hcut, hnone]
  simp [Expression.ofTokens?, Expression.spell, Expression.variablesOf?, hread]

theorem readExpression_eq_ok_iff {ts : List Token} {e : Expression} :
    readExpression ts = .ok e ↔ Expression.ofTokens? ts = some e := by
  unfold readExpression
  split
  case h_1 e' h => simp [h]
  case h_2 h => simp [h]

theorem expression_eq {ts : List Token} {e : Expression}
    (h : Expression.ofTokens? ts = some e) : expression ts = e := by
  rw [expression, h]
  rfl

/-! ## Elements -/

/-- Something is computed from the result of a success iff there is one. -/
theorem map_toOption_eq_some_iff {ε α β : Type} {x : Except ε α} {f : α → β} {b : β} :
    x.toOption.map f = some b ↔ ∃ a, x = .ok a ∧ f a = b := by
  cases x with
  | error e => simp [Except.toOption]
  | ok a => simp [Except.toOption]

/-- Negation in front of a name and a parenthesis, or the shape of an atom, makes a literal. -/
theorem literalTokens?_eq_some_iff {ts rest : List Token} {negated : Bool} :
    literalTokens? ts = some (negated, rest) ↔
      (negated = true ∧ ∃ t n p more, ts = t :: rest ∧ t.kind = .not ∧ rest = n :: p :: more
          ∧ n.kind = .ident ∧ p.kind = .leftParen)
      ∨ (negated = false ∧ rest = ts ∧ (atomShape? ts).isSome = true
          ∧ ∀ t ∈ ts.head?, t.kind ≠ .not) := by
  constructor
  · intro h
    unfold literalTokens? at h
    split at h
    · cases h
    · next t ts =>
      split at h
      · next hnot =>
        split at h
        · next n p more =>
          split at h
          · next hkinds =>
            obtain ⟨rfl, rfl⟩ := Prod.mk.inj (Option.some.inj h)
            exact .inl ⟨rfl, t, n, p, more, rfl, hnot, rfl, hkinds⟩
          · cases h
        · cases h
      · next hnot =>
        split at h
        · next hshape =>
          obtain ⟨rfl, rfl⟩ := Prod.mk.inj (Option.some.inj h)
          exact .inr ⟨rfl, rfl, hshape, by simpa using hnot⟩
        · cases h
  · rintro (⟨rfl, t, n, p, more, rfl, hnot, rfl, hn, hp⟩ | ⟨rfl, rfl, hshape, hnot⟩)
    · simp [literalTokens?, hnot, hn, hp]
    · cases rest with
      | nil => cases hshape
      | cons t ts =>
        have hkind : t.kind ≠ .not := hnot t rfl
        simp [literalTokens?, hkind, hshape]

theorem map_unplaced_eq_assign_iff {ts value : List Token} {target : String} :
    ts.map unplaced = ident target :: op "=" :: value ↔
      ∃ t u rest, ts = t :: u :: rest ∧ t.kind = .ident ∧ t.value = target ∧ u.isOp "=" = true
        ∧ rest.map unplaced = value := by
  constructor
  · intro h
    obtain ⟨t, rest, rfl, ht, h⟩ := List.map_eq_cons_iff.1 h
    obtain ⟨u, rest, rfl, hu, hrest⟩ := List.map_eq_cons_iff.1 h
    obtain ⟨hident, htarget⟩ := unplaced_eq_ident_iff.1 ht
    exact ⟨t, u, rest, rfl, hident, htarget, unplaced_eq_op_iff.1 hu, hrest⟩
  · rintro ⟨t, u, rest, rfl, hident, htarget, hop, hrest⟩
    rw [List.map_cons, List.map_cons, unplaced_eq_ident_iff.2 ⟨hident, htarget⟩,
      unplaced_eq_op_iff.2 hop, hrest]

/-- The first two tokens tell whether a formula has the shape of an assignment. -/
theorem assignShape_cons_iff {t : Token} {ts : List Token} :
    AssignShape ((t :: ts).map unplaced)
      ↔ t.kind = .ident ∧ (ts.head?.any (·.isOp "=")) = true := by
  constructor
  · rintro ⟨target, value, hassign⟩
    obtain ⟨t', u, rest, heq, hident, -, hop, -⟩ := map_unplaced_eq_assign_iff.1 hassign
    obtain ⟨rfl, rfl⟩ := List.cons.inj heq
    exact ⟨hident, hop⟩
  · rintro ⟨hident, hop⟩
    cases ts with
    | nil => cases hop
    | cons u rest =>
      exact ⟨t.value, rest.map unplaced,
        map_unplaced_eq_assign_iff.2 ⟨t, u, rest, rfl, hident, rfl, hop, rfl⟩⟩

theorem readFormula_assign_eq_ok_iff {t u : Token} {value : List Token} {e : Element}
    (hident : t.kind = .ident) (hop : u.isOp "=" = true) :
    readFormula (t :: u :: value) = .ok e
      ↔ ∃ x, Expression.ofTokens? value = some x ∧ Element.assign t.value x = e := by
  have hnot : t.kind ≠ .not := by
    rw [hident]
    decide
  rw [readFormula, if_neg hnot, if_pos ⟨hident, hop⟩]
  cases value with
  | nil => simp [ofTokens?_nil]
  | cons v value =>
    refine map_eq_ok_iff.trans ?_
    simp only [readExpression_eq_ok_iff, List.tail_cons]

theorem readFormula_test_eq_ok_iff {t : Token} {ts : List Token} {e : Element}
    (hnot : t.kind ≠ .not) (hassign : ¬AssignShape ((t :: ts).map unplaced)) :
    readFormula (t :: ts) = .ok e
      ↔ (∃ c ∈ t :: ts, c.isComparison = true)
        ∧ ∃ x, Expression.ofTokens? (t :: ts) = some x ∧ Element.test x = e := by
  rw [readFormula, if_neg hnot, if_neg fun h => hassign (assignShape_cons_iff.2 h)]
  by_cases hcompares : (t :: ts).any Token.isComparison = true
  · rw [if_pos hcompares, and_iff_right (List.any_eq_true.1 hcompares), map_eq_ok_iff]
    simp only [readExpression_eq_ok_iff]
  · rw [if_neg hcompares]
    exact iff_of_false nofun fun h => hcompares (List.any_eq_true.2 h.1)

/-- A formula is an assignment by its shape; failing that, and with a comparison, it is a test. -/
theorem readFormula_eq_ok_iff {ts : List Token} {e : Element} :
    readFormula ts = .ok e ↔
      (∃ target value x, ts.map unplaced = ident target :: op "=" :: value
        ∧ Expression.ofTokens? value = some x ∧ e = .assign target x)
      ∨ ((∀ t ∈ ts.head?, t.kind ≠ .not) ∧ ¬AssignShape (ts.map unplaced)
        ∧ (∃ t ∈ ts, t.isComparison = true)
        ∧ ∃ x, Expression.ofTokens? ts = some x ∧ e = .test x) := by
  constructor
  · intro h
    cases ts with
    | nil => cases h
    | cons t ts =>
      by_cases hassign : AssignShape ((t :: ts).map unplaced)
      · obtain ⟨target, value, heq⟩ := hassign
        obtain ⟨t', u, rest, hts, hident, rfl, hop, rfl⟩ := map_unplaced_eq_assign_iff.1 heq
        obtain ⟨rfl, rfl⟩ := List.cons.inj hts
        obtain ⟨x, hx, rfl⟩ := (readFormula_assign_eq_ok_iff hident hop).1 h
        exact .inl ⟨_, _, x, heq, (ofTokens?_map_unplaced rest).trans hx, rfl⟩
      · have hnot : t.kind ≠ .not := by
          intro hnot
          rw [readFormula, if_pos hnot] at h
          cases h
        obtain ⟨hcompares, x, hx, rfl⟩ := (readFormula_test_eq_ok_iff hnot hassign).1 h
        exact .inr ⟨by simpa using hnot, hassign, hcompares, x, hx, rfl⟩
  · rintro (⟨target, value, x, hassign, hx, rfl⟩ | ⟨hnot, hassign, hcompares, x, hx, rfl⟩)
    · obtain ⟨t, u, rest, rfl, hident, rfl, hop, rfl⟩ := map_unplaced_eq_assign_iff.1 hassign
      rw [ofTokens?_map_unplaced] at hx
      exact (readFormula_assign_eq_ok_iff hident hop).2 ⟨x, hx, rfl⟩
    · obtain ⟨t, ts, rfl⟩ : ∃ t rest, ts = t :: rest := by
        obtain ⟨c, hc, -⟩ := hcompares
        exact List.exists_cons_of_ne_nil (List.ne_nil_of_mem hc)
      exact (readFormula_test_eq_ok_iff (hnot t rfl) hassign).2 ⟨hcompares, x, hx, rfl⟩

/-- Among pieces, the tokens that are read as an atom are those of the shape of a call. -/
theorem atomShape?_isSome_iff {ts : List Token} (h : Balanced ts) :
    (atomShape? ts).isSome = true ↔ CallShape (ts.map unplaced) := by
  constructor
  · intro hsome
    obtain ⟨⟨name, inner⟩, hshape⟩ := Option.isSome_iff_exists.1 hsome
    obtain ⟨hcall, hstays⟩ := exists_atomShape?_iff.1 ⟨inner, hshape, rfl⟩
    refine ⟨name, inner.map unplaced, hcall, hstays, ?_⟩
    have hzero := (balanced_map_unplaced.2 h).2
    have hparens : turn (ident name) = 0 ∧ turn leftParen = 1 ∧ turn rightParen = -1 :=
      ⟨rfl, rfl, rfl⟩
    simp only [hcall, nesting_cons, nesting_append, nesting_nil, hparens] at hzero
    omega
  · rintro ⟨name, inner, hcall, hstays, -⟩
    obtain ⟨body, hshape, -⟩ := exists_atomShape?_iff.2 ⟨hcall, hstays⟩
    rw [hshape]
    rfl

/-- Tokens are taken for a literal, and the rest for its atom, iff they spell that literal. -/
theorem literalTokens?_atom_iff {ts : List Token} (h : Balanced ts) {negated : Bool}
    {atom : AtomForm} :
    (∃ rest, literalTokens? ts = some (negated, rest) ∧ rest.map unplaced = atom.tokens) ↔
      ts.map unplaced = (ElementForm.literal negated atom).tokens := by
  constructor
  · rintro ⟨rest, hliteral, hrest⟩
    rcases literalTokens?_eq_some_iff.1 hliteral with
      ⟨rfl, t, _, _, _, rfl, hnot, -⟩ | ⟨rfl, rfl, -⟩
    · rw [List.map_cons, hrest, unplaced_eq_negation_iff.2 hnot]
      rfl
    · exact hrest
  · intro htokens
    cases negated with
    | true =>
      obtain ⟨t, rest, rfl, ht, hrest⟩ := List.map_eq_cons_iff.1 htokens
      obtain ⟨n, p, body, c, rfl, hn, -, hp, -⟩ := map_unplaced_eq_call_iff.1 hrest
      exact ⟨_, literalTokens?_eq_some_iff.2 (.inl ⟨rfl, t, n, p, _, rfl,
        unplaced_eq_negation_iff.1 ht, rfl, hn, hp⟩), hrest⟩
    | false =>
      have hcall : CallShape (ts.map unplaced) := htokens ▸ atom.callShape
      have hshape := (atomShape?_isSome_iff h).2 hcall
      obtain ⟨n, p, body, c, rfl, hn, -⟩ := map_unplaced_eq_call_iff.1 htokens
      refine ⟨_, literalTokens?_eq_some_iff.2 (.inr ⟨rfl, rfl, hshape, ?_⟩), htokens⟩
      simp [hn]

theorem head?_map_unplaced_ne_not {ts : List Token} :
    (∀ t ∈ (ts.map unplaced).head?, t.kind ≠ .not) ↔ ∀ t ∈ ts.head?, t.kind ≠ .not := by
  cases ts with
  | nil => rfl
  | cons t ts => simp [kind_unplaced]

/-- Nothing that spells an assignment or a test is taken for a literal. -/
theorem literalTokens?_eq_none {ts : List Token} (h : Balanced ts) {x : ElementForm}
    (htokens : ts.map unplaced = x.tokens) (hvalid : x.Valid) (hx : x.isLiteral = false) :
    literalTokens? ts = none := by
  rw [Option.eq_none_iff_forall_ne_some]
  rintro ⟨negated, rest⟩ hliteral
  -- a literal starts with a negation or has the shape of a call
  have hshape : (∃ t, t.kind = .not ∧ t ∈ ts.head?) ∨ CallShape (ts.map unplaced) := by
    rcases literalTokens?_eq_some_iff.1 hliteral with
      ⟨-, t, _, _, _, rfl, hnot, -⟩ | ⟨-, rfl, hsome, -⟩
    · exact .inl ⟨t, hnot, rfl⟩
    · exact .inr ((atomShape?_isSome_iff h).1 hsome)
  cases x with
  | literal negated atom => cases hx
  | assign target value =>
    obtain ⟨t, u, rest, rfl, hident, -, hop, -⟩ := map_unplaced_eq_assign_iff.1 htokens
    rcases hshape with ⟨v, hnot, hv⟩ | ⟨name, inner, hcall, -⟩
    · obtain rfl : t = v := Option.some.inj hv
      rw [hident] at hnot
      cases hnot
    · obtain ⟨n, p, _, _, heq, -, -, hp, -⟩ := map_unplaced_eq_call_iff.1 hcall
      obtain ⟨-, heq⟩ := List.cons.inj heq
      obtain ⟨rfl, -⟩ := List.cons.inj heq
      simp [isOp, hp] at hop
  | test condition =>
    have htest : IsTest (ts.map unplaced) := htokens ▸ hvalid
    rcases hshape with ⟨v, hnot, hv⟩ | hcall
    · exact head?_map_unplaced_ne_not.1 htest.not_negated v hv hnot
    · exact htest.not_call hcall

/-- A piece that is not taken for a literal is read as a formula iff it spells a valid one. -/
theorem readFormula_eq_ok_iff_form {ts : List Token} {e : Element} (hpiece : IsPiece ts)
    (hliteral : literalTokens? ts = none) :
    readFormula ts = .ok e ↔ ∃ x : ElementForm, ts.map unplaced = x.tokens ∧ x.Valid
      ∧ x.isLiteral = false ∧ ∀ n, x.denote n = (e, n) := by
  rw [readFormula_eq_ok_iff]
  constructor
  · rintro (⟨target, value, x, hassign, hx, rfl⟩ | ⟨hnot, hassign, ⟨t, ht, hcomp⟩, x, hx, rfl⟩)
    · have hall : IsPiece (ident target :: op "=" :: value) :=
        hassign ▸ isPiece_map_unplaced.2 hpiece
      have hrest := (isPiece_cons_iff (t := ident target) rfl nofun ⟨nofun, nofun⟩).1 hall
      have hvalue := (isPiece_cons_iff (t := op "=") rfl nofun ⟨nofun, nofun⟩).1 hrest
      refine ⟨.assign target value, hassign, ⟨hvalue, x, hx⟩, rfl, fun n => ?_⟩
      rw [ElementForm.denote, expression_eq hx]
    · refine ⟨.test (ts.map unplaced), rfl, ?_, rfl, fun n => ?_⟩
      · refine ⟨⟨isPiece_map_unplaced.2 hpiece, x, (ofTokens?_map_unplaced ts).trans hx⟩,
          ⟨t.unplaced, List.mem_map.2 ⟨t, ht, rfl⟩, (isComparison_unplaced t).trans hcomp⟩,
          head?_map_unplaced_ne_not.2 hnot, hassign, fun hcall => ?_⟩
        -- the shape of a call would have been taken for a literal
        have hshape := (atomShape?_isSome_iff hpiece.balanced).2 hcall
        have hsome := literalTokens?_eq_some_iff.2 (.inr ⟨rfl, rfl, hshape, hnot⟩)
        rw [hliteral] at hsome
        cases hsome
      · rw [ElementForm.denote, expression_eq ((ofTokens?_map_unplaced ts).trans hx)]
  · rintro ⟨x, htokens, hvalid, hx, hdenote⟩
    obtain rfl : (x.denote 0).1 = e := congrArg Prod.fst (hdenote 0)
    cases x with
    | literal negated atom => cases hx
    | assign target value =>
      obtain ⟨v, hv⟩ := hvalid.accepted
      refine .inl ⟨target, value, v, htokens, hv, ?_⟩
      rw [ElementForm.denote, expression_eq hv]
    | test condition =>
      have htest : IsTest (ts.map unplaced) := htokens ▸ hvalid
      obtain ⟨v, hv⟩ := htest.accepted
      obtain ⟨u, hu, hcomp⟩ := htest.compares
      obtain ⟨t, ht, rfl⟩ := List.mem_map.1 hu
      refine .inr ⟨head?_map_unplaced_ne_not.1 htest.not_negated, htest.not_assign,
        ⟨t, ht, (isComparison_unplaced t).symm.trans hcomp⟩, v,
        (ofTokens?_map_unplaced ts).symm.trans hv, ?_⟩
      obtain rfl : ts.map unplaced = condition := htokens
      rw [ElementForm.denote, expression_eq hv]

/-- A piece is read as an element iff it spells a valid form. -/
theorem readElement_eq_ok_iff {n n' : Nat} {ts : List Token} {e : Element} (hpiece : IsPiece ts) :
    readElement n ts = .ok (e, n') ↔
      ∃ x : ElementForm, ts.map unplaced = x.tokens ∧ x.Valid ∧ x.denote n = (e, n') := by
  have hreads : ∀ {x : ArgForm}, Reads (some n) x ↔ x.Valid := by simp [Reads]
  constructor
  · intro h
    unfold readElement at h
    split at h
    · next negated rest hliteral =>
      obtain ⟨⟨atom, fresh⟩, hatom, h⟩ := bind_eq_ok_iff.1 h
      obtain ⟨rfl, rfl⟩ := Prod.mk.inj (Except.ok.inj h)
      obtain ⟨x, hx, hvalid, rfl, rfl⟩ := readAtom_eq_ok_iff.1 hatom
      exact ⟨.literal negated x,
        (literalTokens?_atom_iff hpiece.balanced).1 ⟨rest, hliteral, hx⟩,
        fun y hy => hreads.1 (hvalid y hy), rfl⟩
    · next hliteral =>
      obtain ⟨e', hformula, h⟩ := bind_eq_ok_iff.1 h
      obtain ⟨rfl, rfl⟩ := Prod.mk.inj (Except.ok.inj h)
      obtain ⟨x, hx, hvalid, -, hdenote⟩ :=
        (readFormula_eq_ok_iff_form hpiece hliteral).1 hformula
      exact ⟨x, hx, hvalid, hdenote n⟩
  · rintro ⟨x, htokens, hvalid, hdenote⟩
    cases hx : x.isLiteral with
    | true =>
      cases x with
      | literal negated atom =>
        obtain ⟨rest, hliteral, hrest⟩ := (literalTokens?_atom_iff hpiece.balanced).2 htokens
        have hatom := readAtom_eq_ok_iff.2
          ⟨atom, hrest, fun y hy => hreads.2 (hvalid y hy), rfl, rfl⟩
        unfold readElement
        rw [hliteral]
        exact bind_eq_ok_iff.2 ⟨_, hatom, congrArg Except.ok hdenote⟩
      | assign target value => cases hx
      | test condition => cases hx
    | false =>
      have hliteral := literalTokens?_eq_none hpiece.balanced htokens hvalid hx
      have hsame : ∀ m, x.denote m = ((x.denote n).1, m) := by
        cases x with
        | literal negated atom => cases hx
        | assign target value => exact fun m => rfl
        | test condition => exact fun m => rfl
      have hformula := (readFormula_eq_ok_iff_form hpiece hliteral).2
        ⟨x, htokens, hvalid, hx, hsame⟩
      unfold readElement
      rw [hliteral, ← hdenote, hsame n]
      exact bind_eq_ok_iff.2 ⟨_, hformula, rfl⟩

end Rule

end RulePlan
