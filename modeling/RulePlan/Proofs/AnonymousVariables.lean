import RulePlan.Proofs.RenderedRule

/-!
# RulePlan.Proofs.AnonymousVariables — what the variables of `_` are called

Each `_` among the arguments of a body stands for a variable of its own. The parser counts them and
calls the first one `_1`, the next one `_2`, and so on. Names may start with an underscore, so a
rule can have a variable of such a name already, before the `_` or after it, and the parser does not
look.

What the form of a rule mentions is a list of places: names that are written, and holes. The rule
mentions the same list with the holes numbered, and the rest follows from the numbering alone. The
generated names are different from each other, and the only name that can clash with one of them is
that very name, written out.
-/

namespace RulePlan

namespace Grammar

/-! ## Filling holes -/

/-- The name of the n-th anonymous variable. -/
def anonymous (n : Nat) : String := "_" ++ Text.Decimal.ofNat n

theorem anonymous_injective : Function.Injective anonymous := by
  intro m n h
  have hdigits : Text.Decimal.ofNat m = Text.Decimal.ofNat n := (String.append_right_inj _).1 h
  have hlist := congrArg String.toList hdigits
  rw [toList_ofNat, toList_ofNat] at hlist
  exact Text.Decimal.eq_of_digits hlist

/-- Names for places: what is written stays, and holes are numbered on from `n`. -/
def fill (n : Nat) : List (Option String) → List String
  | [] => []
  | none :: places => anonymous (n + 1) :: fill (n + 1) places
  | some x :: places => x :: fill n places

theorem length_fill (n : Nat) (places : List (Option String)) :
    (fill n places).length = places.length := by
  induction places generalizing n with
  | nil => rfl
  | cons place places ih =>
    cases place with
    | none => exact congrArg (· + 1) (ih (n + 1))
    | some x => exact congrArg (· + 1) (ih n)

theorem fill_append (n : Nat) (places more : List (Option String)) :
    fill n (places ++ more) = fill n places ++ fill (n + places.count none) more := by
  induction places generalizing n with
  | nil => rfl
  | cons place places ih =>
    cases place with
    | none =>
      show anonymous (n + 1) :: fill (n + 1) (places ++ more) = _
      rw [ih, List.count_cons_self, Nat.add_right_comm, Nat.add_assoc n]
      rfl
    | some x =>
      show x :: fill n (places ++ more) = _
      rw [ih, List.count_cons_of_ne (Option.some_ne_none x)]
      rfl

/-- Without holes the names stay and the number does. -/
theorem fill_map_some (n : Nat) (names : List String) :
    fill n (names.map some) = names ∧ n + (names.map some).count none = n := by
  induction names with
  | nil => exact ⟨rfl, rfl⟩
  | cons x names ih =>
    rw [List.map_cons, List.count_cons_of_ne (Option.some_ne_none x)]
    exact ⟨congrArg (x :: ·) ih.1, ih.2⟩

/-- A name stays, and a hole gets the number of holes up to it. -/
theorem getElem?_fill (n : Nat) (places : List (Option String)) (i : Nat) :
    (fill n places)[i]? = places[i]?.map fun place =>
      place.getD (anonymous (n + (places.take i).count none + 1)) := by
  induction places generalizing n i with
  | nil => rfl
  | cons place places ih =>
    cases place with
    | none =>
      cases i with
      | zero => rfl
      | succ i =>
        show (fill (n + 1) places)[i]? = _
        rw [ih, List.getElem?_cons_succ, List.take_succ_cons, List.count_cons_self]
        simp only [Nat.add_assoc, Nat.add_comm 1]
    | some x =>
      cases i with
      | zero => rfl
      | succ i =>
        show (fill n places)[i]? = _
        rw [ih, List.getElem?_cons_succ, List.take_succ_cons,
          List.count_cons_of_ne (Option.some_ne_none x)]

end Grammar

/-! ## Places of variables -/

/-- The variables of an element at all their places; an expression has each of its variables
once. -/
def Element.variablePlaces : Element → List String
  | .literal l => l.atom.variablePlaces
  | .assign target value => target :: value.vars
  | .test condition => condition.vars

/-- The variables of a rule at all their places, in the head and then in the body. -/
def Rule.variablePlaces (r : Rule) : List String :=
  r.head.variablePlaces ++ r.body.flatMap Element.variablePlaces

namespace Grammar

/-- The place of an argument, if it is no number. -/
def ArgForm.places : ArgForm → List (Option String)
  | .name s => [if s = "_" then none else some s]
  | .number _ => []
  | .negative _ => []

/-- The places of an atom. -/
def AtomForm.places (a : AtomForm) : List (Option String) := a.args.flatMap ArgForm.places

/-- The places of an element. Only an argument can be a hole. -/
def ElementForm.places : ElementForm → List (Option String)
  | .literal _ atom => atom.places
  | .assign target value => some target :: (expression value).vars.map some
  | .test condition => (expression condition).vars.map some

/-- The places of a rule. -/
def RuleForm.places (r : RuleForm) : List (Option String) :=
  r.head.places ++ r.body.flatMap ElementForm.places

/-- An argument is a hole that takes the next number, or a name or a number as it stands. -/
theorem ArgForm.denote_places (n : Nat) (x : ArgForm) :
    (x.denote n).1.name?.toList = fill n x.places
      ∧ (x.denote n).2 = n + x.places.count none := by
  cases x with
  | name s =>
    unfold denote places
    dsimp only
    by_cases hs : s = "_"
    · rw [if_pos hs, if_pos hs]
      exact ⟨rfl, rfl⟩
    · rw [if_neg hs, if_neg hs]
      exact ⟨rfl, rfl⟩
  | number digits => exact ⟨rfl, rfl⟩
  | negative digits => exact ⟨rfl, rfl⟩

theorem AtomForm.denote_places (n : Nat) (a : AtomForm) :
    (a.denote n).1.variablePlaces = fill n a.places
      ∧ (a.denote n).2 = n + a.places.count none := by
  obtain ⟨name, args⟩ := a
  unfold denote places Atom.variablePlaces
  dsimp only
  induction args generalizing n with
  | nil => exact ⟨rfl, rfl⟩
  | cons x args ih =>
    obtain ⟨hname, hcount⟩ := x.denote_places n
    obtain ⟨hnames, hcounts⟩ := ih (x.denote n).2
    unfold denoteArgs
    dsimp only
    rw [List.flatMap_cons, fill_append, List.count_append, ← Nat.add_assoc, ← hcount, ← hname,
      ← hnames, List.filterMap_cons]
    refine ⟨?_, hcounts⟩
    cases (x.denote n).1.name? <;> rfl

theorem ElementForm.denote_places (n : Nat) (e : ElementForm) :
    (e.denote n).1.variablePlaces = fill n e.places
      ∧ (e.denote n).2 = n + e.places.count none := by
  cases e with
  | literal negated atom => exact atom.denote_places n
  | assign target value =>
    obtain ⟨hfill, hcount⟩ := fill_map_some n (target :: (expression value).vars)
    exact ⟨hfill.symm, hcount.symm⟩
  | test condition =>
    obtain ⟨hfill, hcount⟩ := fill_map_some n (expression condition).vars
    exact ⟨hfill.symm, hcount.symm⟩

theorem variablePlaces_denoteBody (n : Nat) (body : List ElementForm) :
    (denoteBody n body).flatMap Element.variablePlaces
      = fill n (body.flatMap ElementForm.places) := by
  induction body generalizing n with
  | nil => rfl
  | cons e body ih =>
    obtain ⟨hplaces, hcount⟩ := e.denote_places n
    unfold denoteBody
    rw [List.flatMap_cons, List.flatMap_cons, fill_append, ← hcount, ← hplaces, ih]

/-- A rule has the places of its form, with the holes numbered from one. -/
theorem RuleForm.variablePlaces_denote {form : RuleForm} (hform : form.Valid) (line : Int)
    (text : String) : (form.denote line text).variablePlaces = fill 0 form.places := by
  -- a head has no holes, so those of the body are counted from the start
  have hhead : form.head.places.count none = 0 := by
    refine List.count_eq_zero.2 fun hhole => ?_
    obtain ⟨x, hx, hplace⟩ := List.mem_flatMap.1 hhole
    cases x with
    | name s =>
      have hs : s = "_" := by simpa [ArgForm.places, eq_comm] using hplace
      exact hform.named _ hx (congrArg ArgForm.name hs)
    | number digits => cases hplace
    | negative digits => cases hplace
  unfold Rule.variablePlaces places
  rw [fill_append, hhead, ← variablePlaces_denoteBody, ← (form.head.denote_places 0).1]
  rfl

end Grammar

/-! ## Clashes -/

namespace Grammar

/-- Holes before a hole are fewer than those before a later place. -/
theorem count_take_lt {places : List (Option String)} {i j : Nat} (hi : places[i]? = some none)
    (hij : i < j) : (places.take i).count none < (places.take j).count none := by
  have hnext : (places.take (i + 1)).count none = (places.take i).count none + 1 := by
    rw [List.take_add_one, hi, List.count_append]
    rfl
  have hle : (places.take (i + 1)).count none ≤ (places.take j).count none :=
    (List.take_prefix_take_left hij).sublist.count_le _
  omega

/-- How names fill places: written names are in their places, and every hole has the name with its
number. No other hole has this name, and no other place has it iff it is not written anywhere. -/
structure Fills (places : List (Option String)) (names : List String) : Prop where
  length_eq : names.length = places.length
  written : ∀ (i : Nat) (x : String), places[i]? = some (some x) → names[i]? = some x
  generated : ∀ i : Nat, places[i]? = some none →
    names[i]? = some (anonymous ((places.take i).count none + 1))
  distinct : ∀ i j : Nat, places[i]? = some none → places[j]? = some none →
    names[i]? = names[j]? → i = j
  fresh_iff : ∀ i : Nat, places[i]? = some none →
    ((∀ j : Nat, j ≠ i → names[j]? ≠ names[i]?) ↔
      some (anonymous ((places.take i).count none + 1)) ∉ places)

theorem fill_hole {places : List (Option String)} {i : Nat} (hi : places[i]? = some none) :
    (fill 0 places)[i]? = some (anonymous ((places.take i).count none + 1)) := by
  rw [getElem?_fill, hi, Nat.zero_add]
  rfl

/-- Holes have different names, since their numbers go up. -/
theorem fill_hole_injective {places : List (Option String)} {i j : Nat}
    (hi : places[i]? = some none) (hj : places[j]? = some none)
    (hsame : (fill 0 places)[i]? = (fill 0 places)[j]?) : i = j := by
  rw [fill_hole hi, fill_hole hj] at hsame
  have hcount := anonymous_injective (Option.some.inj hsame)
  rcases Nat.lt_trichotomy i j with hlt | heq | hlt
  · have hless := count_take_lt hi hlt
    omega
  · exact heq
  · have hless := count_take_lt hj hlt
    omega

theorem fills_fill (places : List (Option String)) : Fills places (fill 0 places) := by
  have hwritten : ∀ (i : Nat) (x : String), places[i]? = some (some x) →
      (fill 0 places)[i]? = some x := by
    intro i x hx
    rw [getElem?_fill, hx]
    rfl
  refine ⟨length_fill 0 places, hwritten, fun _ => fill_hole, fun _ _ => fill_hole_injective, ?_⟩
  intro i hi
  rw [fill_hole hi]
  constructor
  · intro hfresh hmem
    obtain ⟨j, hj⟩ := List.mem_iff_getElem?.1 hmem
    refine hfresh j ?_ (hwritten j _ hj)
    rintro rfl
    exact nomatch hi.symm.trans hj
  · intro hunwritten j hne hsame
    rw [getElem?_fill] at hsame
    obtain ⟨place, hj, hname⟩ := Option.map_eq_some_iff.1 hsame
    cases place with
    | none =>
      refine hne (fill_hole_injective hj hi ?_)
      rw [fill_hole hi, getElem?_fill, hsame]
    | some x =>
      -- a written name, so the name of the hole is written
      obtain rfl : x = anonymous ((places.take i).count none + 1) := hname
      exact hunwritten (List.mem_of_getElem? hj)

end Grammar

namespace Rule

open Grammar

/-- **An anonymous variable is fresh iff its name is not written.** Whatever text in valid UTF-8 is
parsed, the rule has the variables of the text, place by place, with the n-th `_` called `_n`.
Different places of `_` have different variables. Such a variable differs from those at all other
places too, in head, body and expressions, iff the text has no variable of that name. -/
theorem fills_of_parse {symbols : SymbolTable} {line : Int} {text : String} {r : Rule}
    (h : (parse symbols line text).1 = .ok r) :
    ∃ form, Derives line text form ∧ form.denote line (Text.trim text) = r
      ∧ Fills form.places r.variablePlaces := by
  obtain ⟨form, hform, rfl⟩ := read_eq_ok_iff.1 h
  refine ⟨form, hform, rfl, ?_⟩
  obtain ⟨tokens, -, -, hvalid⟩ := hform
  rw [RuleForm.variablePlaces_denote hvalid]
  exact fills_fill form.places

/-- Two anonymous variables in an atom that is joined to another. -/
theorem fills_of_parse_hubs : ∃ r form,
    (parse .empty 1 "hub(X) :- road(X, _, _), open(X).").1 = .ok r
      ∧ Derives 1 "hub(X) :- road(X, _, _), open(X)." form
      ∧ r.variablePlaces = ["X", "X", "_1", "_2", "X"] ∧ Fills form.places r.variablePlaces := by
  have hread : (match (parse .empty 1 "hub(X) :- road(X, _, _), open(X).").1 with
      | .ok r => decide (r.variablePlaces = ["X", "X", "_1", "_2", "X"])
      | .error _ => false) = true := by
    decide +kernel
  split at hread
  case h_2 => cases hread
  case h_1 r hr =>
    obtain ⟨form, hform, -, hfills⟩ := fills_of_parse hr
    exact ⟨r, form, hr, hform, of_decide_eq_true hread, hfills⟩

/-- A variable that is written like the first anonymous one. Both places have it, though the text
has `_` at the second. -/
theorem clash_of_parse : ∃ r form, (parse .empty 1 "a(X) :- b(X, _1, _).").1 = .ok r
    ∧ Derives 1 "a(X) :- b(X, _1, _)." form
    ∧ form.places = [some "X", some "X", some "_1", none]
    ∧ r.variablePlaces = ["X", "X", "_1", "_1"] := by
  let form : RuleForm :=
    ⟨⟨"a", [.name "X"]⟩, [.literal false ⟨"b", [.name "X", .name "_1", .name "_"]⟩]⟩
  have hread : (match Token.tokenize (Text.trim "a(X) :- b(X, _1, _).") 1 with
      | .ok tokens => decide (tokens.dropLast.map Token.unplaced = form.tokens)
      | .error _ => false) = true := by
    decide +kernel
  split at hread
  case h_2 => cases hread
  case h_1 tokens htokens =>
    have hvalid : form.Valid :=
      { head := by simp [form, AtomForm.Valid, ArgForm.Valid]
        named := by simp [form]
        body := by simp [form, ElementForm.Valid, AtomForm.Valid, ArgForm.Valid]
        literal := ⟨_, List.mem_cons_self, rfl⟩
        positive := by decide }
    have hform : Derives 1 "a(X) :- b(X, _1, _)." form :=
      ⟨tokens, htokens, of_decide_eq_true hread, hvalid⟩
    exact ⟨_, form, read_eq_ok_iff.2 ⟨form, hform, rfl⟩, hform, by decide, by decide +kernel⟩

end Rule

end RulePlan
