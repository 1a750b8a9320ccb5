import RulePlan.Proofs.ElementParsing

/-!
# RulePlan.Proofs.RuleParsing — the parser reads exactly the grammar

The parser does not follow the grammar: it checks parentheses, separators and dots over the whole
line, cuts the body at its outermost commas and then guesses from its shape what each piece is. Cut
at its only separator and its only dot, a line is balanced iff its body is, once its head has been
read, so that every piece of the body can be read as an element. Together with the unambiguity of
the grammar this says that a text is accepted iff some form derives its tokens, that the form is the
only one, and that the rule returned is its meaning.
-/

namespace RulePlan.Rule

open Grammar Token

/-! ## Bodies -/

theorem readBody_cons_eq_ok_iff {n : Nat} {s : List Token} {ss : List (List Token)}
    {body : List Element} :
    (readBody n (s :: ss)).result = .ok body ↔
      ∃ e n' rest, readElement n s = .ok (e, n') ∧ (readBody n' ss).result = .ok rest
        ∧ body = e :: rest := by
  rw [readBody]
  split
  case h_1 fault hread => simp [hread]
  case h_2 e n' hread =>
    rw [map_eq_ok_iff]
    constructor
    · rintro ⟨rest, hrest, rfl⟩
      exact ⟨e, n', rest, hread, hrest, rfl⟩
    · rintro ⟨e', m, rest, hread', hrest, rfl⟩
      obtain ⟨rfl, rfl⟩ := Prod.mk.inj (Except.ok.inj (hread.symm.trans hread'))
      exact ⟨rest, hrest, rfl⟩

theorem readBody_eq_ok_iff {n : Nat} {ss : List (List Token)} {body : List Element}
    (hpieces : ∀ s ∈ ss, IsPiece s) :
    (readBody n ss).result = .ok body ↔
      ∃ xs : List ElementForm, ss.map (List.map unplaced) = xs.map ElementForm.tokens
        ∧ (∀ x ∈ xs, x.Valid) ∧ body = denoteBody n xs := by
  induction ss generalizing n body with
  | nil =>
    constructor
    · intro h
      obtain rfl := Except.ok.inj h
      exact ⟨[], rfl, by simp, rfl⟩
    · rintro ⟨xs, htokens, -, rfl⟩
      obtain rfl := List.map_eq_nil_iff.1 htokens.symm
      rfl
  | cons s ss ih =>
    have hpiece := hpieces s List.mem_cons_self
    have hrest : ∀ u ∈ ss, IsPiece u := fun u hu => hpieces u (List.mem_cons_of_mem s hu)
    rw [readBody_cons_eq_ok_iff]
    constructor
    · rintro ⟨e, m, rest, hread, hmore, rfl⟩
      obtain ⟨x, hx, hvalid, hdenote⟩ := (readElement_eq_ok_iff hpiece).1 hread
      obtain ⟨xs, hxs, hall, rfl⟩ := (ih hrest).1 hmore
      refine ⟨x :: xs, by rw [List.map_cons, List.map_cons, hx, hxs], ?_, ?_⟩
      · intro y hy
        rcases List.mem_cons.1 hy with rfl | hy
        · exact hvalid
        · exact hall y hy
      · rw [denoteBody, hdenote]
    · rintro ⟨xs, htokens, hall, rfl⟩
      obtain ⟨x, xs, rfl, hx, hxs⟩ := List.map_eq_cons_iff.1 htokens.symm
      have hvalid := hall x List.mem_cons_self
      refine ⟨_, _, _, (readElement_eq_ok_iff hpiece).2 ⟨x, hx.symm, hvalid, rfl⟩,
        (ih hrest).2 ⟨xs, hxs.symm, ?_, rfl⟩, rfl⟩
      exact fun y hy => hall y (List.mem_cons_of_mem x hy)

theorem literalsOf_cons (e : Element) (body : List Element) :
    literalsOf (e :: body) = (literalsOf [e]) ++ literalsOf body := by
  rw [← List.singleton_append, literalsOf, List.filterMap_append]
  rfl

/-- The literals of a body are counted in its forms. -/
theorem literalsOf_denoteBody (n : Nat) (xs : List ElementForm) :
    ((literalsOf (denoteBody n xs)).filter (!·.negated)).length = xs.countP ElementForm.isPositive
      ∧ (literalsOf (denoteBody n xs)).length = xs.countP ElementForm.isLiteral := by
  induction xs generalizing n with
  | nil => exact ⟨rfl, rfl⟩
  | cons x xs ih =>
    obtain ⟨hpositive, hliteral⟩ := ih (x.denote n).2
    have hone : ((literalsOf [(x.denote n).1]).filter (!·.negated)).length
          = (if x.isPositive then 1 else 0)
        ∧ (literalsOf [(x.denote n).1]).length = (if x.isLiteral then 1 else 0) := by
      cases x with
      | literal negated atom => cases negated <;> exact ⟨rfl, rfl⟩
      | assign target value => exact ⟨rfl, rfl⟩
      | test condition => exact ⟨rfl, rfl⟩
    rw [denoteBody, literalsOf_cons, List.filter_append, List.length_append, List.length_append,
      hone.1, hone.2, hpositive, hliteral, List.countP_cons, List.countP_cons]
    exact ⟨Nat.add_comm _ _, Nat.add_comm _ _⟩

theorem checkCounts_eq_ok_iff {body : List Element} :
    checkCounts body = .ok () ↔
      ((literalsOf body).filter (!·.negated)).length ≤ 2 ∧ 0 < (literalsOf body).length := by
  unfold checkCounts
  simp only [List.isEmpty_iff, ← List.length_eq_zero_iff]
  split
  · exact iff_of_false nofun (by omega)
  · split
    · exact iff_of_false nofun (by omega)
    · exact iff_of_true rfl (by omega)

theorem checkCounts_denoteBody_iff {n : Nat} {xs : List ElementForm} :
    checkCounts (denoteBody n xs) = .ok () ↔
      xs.countP ElementForm.isPositive ≤ 2 ∧ ∃ x ∈ xs, x.isLiteral = true := by
  obtain ⟨hpositive, hliteral⟩ := literalsOf_denoteBody n xs
  rw [checkCounts_eq_ok_iff, hpositive, hliteral, List.countP_pos_iff]

/-! ## Whole rules -/

/-- The checks of a whole line, and the parts that it is split into. -/
theorem splitRule_checks {ts head body : List Token} :
    splitRule ts = .ok (head, body) ↔
      balance 0 ts = .ok () ∧ (∃ i, ts.filter (·.kind == .implies) = [i])
        ∧ ts.getLast?.map Token.kind = some .dot ∧ ts.dropLast.find? (·.kind == .dot) = none
        ∧ head = ts.takeWhile (·.kind != .implies)
        ∧ body = (ts.drop (head.length + 1)).dropLast := by
  unfold splitRule
  by_cases hnil : ts = []
  · subst hnil
    exact iff_of_false nofun (by simp)
  rw [if_neg hnil, bind_eq_ok_iff]
  constructor
  · rintro ⟨⟨⟩, hbalance, h⟩
    dsimp only at h
    split at h
    · cases h
    · cases h
    · next i hseparator =>
      split at h
      · cases h
      · next hlast =>
        split at h
        · cases h
        · next hdot =>
          obtain ⟨rfl, rfl⟩ := Prod.mk.inj (Except.ok.inj h)
          exact ⟨hbalance, ⟨i, hseparator⟩, Decidable.not_not.1 hlast, hdot, rfl, rfl⟩
  · rintro ⟨hbalance, ⟨i, hseparator⟩, hlast, hdot, rfl, rfl⟩
    refine ⟨(), hbalance, ?_⟩
    dsimp only
    rw [hseparator, hlast, hdot, if_neg (not_not_intro rfl)]
    rfl

/-- Where a line is cut, if its first separator is known. -/
theorem line_parts {head : List Token} {i : Token} (hi : i.kind = .implies)
    (hhead : ∀ t ∈ head, t.kind ≠ .implies) (body : List Token) (d : Token) :
    (head ++ i :: (body ++ [d])).takeWhile (·.kind != .implies) = head
      ∧ ((head ++ i :: (body ++ [d])).drop (head.length + 1)).dropLast = body
      ∧ (head ++ i :: (body ++ [d])).dropLast = head ++ i :: body
      ∧ (head ++ i :: (body ++ [d])).getLast? = some d := by
  have hbefore : ∀ t ∈ head, (t.kind != .implies) = true := by simpa using hhead
  have hline : head ++ i :: (body ++ [d]) = (head ++ i :: body) ++ [d] := by simp
  refine ⟨?_, ?_, ?_, ?_⟩
  · rw [List.takeWhile_append_of_pos hbefore, List.takeWhile_cons_of_neg (by simp [hi]),
      List.append_nil]
  · rw [← List.drop_drop, List.drop_left, List.drop_one, List.tail_cons, List.dropLast_concat]
  · rw [hline, List.dropLast_concat]
  · rw [hline, List.getLast?_concat]

/-- A line is split around its only separator and before its only dot. -/
theorem splitRule_eq_ok_iff {ts head body : List Token} :
    splitRule ts = .ok (head, body) ↔
      ∃ i d, ts = head ++ i :: (body ++ [d]) ∧ i.kind = .implies ∧ d.kind = .dot ∧ Balanced ts
        ∧ ∀ t ∈ head ++ body, t.kind ≠ .dot ∧ t.kind ≠ .implies := by
  rw [splitRule_checks, balance_eq_ok_iff]
  constructor
  · rintro ⟨⟨hstays, hzero⟩, ⟨i, hseparator⟩, hlast, hdot, hhead, hbody⟩
    obtain ⟨front, back, rfl, hfront, hi, hback⟩ := List.filter_eq_cons_iff.1 hseparator
    have hi : i.kind = .implies := by simpa using hi
    have hfront : ∀ t ∈ front, t.kind ≠ .implies := by simpa using hfront
    -- the line ends with a dot, so the separator is not its end
    obtain ⟨middle, d, rfl⟩ : ∃ middle d, back = middle ++ [d] := by
      refine List.eq_nil_or_concat' back |>.resolve_left ?_
      rintro rfl
      simp [hi] at hlast
    obtain ⟨htake, hdrop, hinit, hend⟩ := line_parts hi hfront middle d
    obtain rfl : head = front := hhead.trans htake
    obtain rfl : body = middle := hbody.trans hdrop
    have hd : d.kind = .dot := by simpa [hend] using hlast
    rw [hinit, List.find?_eq_none] at hdot
    have hdots : ∀ t ∈ head ++ i :: body, t.kind ≠ .dot :=
      fun t ht => by simpa using hdot t ht
    have hback : ∀ t ∈ body ++ [d], t.kind ≠ .implies :=
      fun t ht => by simpa using List.filter_eq_nil_iff.1 hback t ht
    refine ⟨i, d, rfl, hi, hd, ⟨hstays, by simpa using hzero⟩, fun t ht => ?_⟩
    rcases List.mem_append.1 ht with ht | ht
    · exact ⟨hdots t (List.mem_append_left _ ht), hfront t ht⟩
    · exact ⟨hdots t (List.mem_append_right _ (List.mem_cons_of_mem i ht)),
        hback t (List.mem_append_left _ ht)⟩
  · rintro ⟨i, d, rfl, hi, hd, hbalanced, hinner⟩
    have hhead : ∀ t ∈ head, t.kind ≠ .dot ∧ t.kind ≠ .implies :=
      fun t ht => hinner t (List.mem_append_left _ ht)
    have hbody : ∀ t ∈ body, t.kind ≠ .dot ∧ t.kind ≠ .implies :=
      fun t ht => hinner t (List.mem_append_right _ ht)
    obtain ⟨htake, hdrop, hinit, hend⟩ := line_parts hi
      (fun t ht => (hhead t ht).2) body d
    refine ⟨⟨hbalanced.1, by simpa using hbalanced.2⟩, ⟨i, ?_⟩, by rw [hend, Option.map_some, hd],
      ?_, htake.symm, hdrop.symm⟩
    · refine List.filter_eq_cons_iff.2 ⟨head, body ++ [d], rfl, ?_, by simp [hi], ?_⟩
      · simpa using fun t ht => (hhead t ht).2
      · simpa [hd] using fun t ht => (hbody t ht).2
    · rw [hinit]
      simp only [List.find?_eq_none, List.mem_append, List.mem_cons, beq_iff_eq]
      rintro t (ht | rfl | ht)
      · exact (hhead t ht).1
      · rw [hi]
        exact nofun
      · exact (hbody t ht).1

/-- The head of a line is an atom without anonymous variables. -/
theorem readHead_eq_ok_iff {ts : List Token} {a : Atom} :
    readHead ts = .ok a ↔ ∃ x : AtomForm, ts.map unplaced = x.tokens ∧ x.Valid
      ∧ (∀ y ∈ x.args, y ≠ .name "_") ∧ a = (x.denote 0).1 := by
  have hreads : ∀ {x : ArgForm}, Reads none x ↔ x.Valid ∧ x ≠ .name "_" := by simp [Reads]
  unfold readHead
  split
  · next hnot =>
    refine iff_of_false (by simp) ?_
    rintro ⟨x, htokens, -⟩
    obtain ⟨n, p, body, c, rfl, hn, -⟩ := map_unplaced_eq_call_iff.1 htokens
    simp [hn] at hnot
  · rw [map_eq_ok_iff]
    constructor
    · rintro ⟨⟨a, f⟩, hatom, rfl⟩
      obtain ⟨x, hx, hargs, rfl, -⟩ := readAtom_eq_ok_iff.1 hatom
      exact ⟨x, hx, fun y hy => (hreads.1 (hargs y hy)).1, fun y hy => (hreads.1 (hargs y hy)).2,
        rfl⟩
    · rintro ⟨x, hx, hvalid, hnamed, rfl⟩
      refine ⟨_, readAtom_eq_ok_iff.2 ⟨x, hx, fun y hy => ?_, rfl, rfl⟩, rfl⟩
      exact hreads.2 ⟨hvalid y hy, hnamed y hy⟩

/-- The steps by which a line is read. -/
theorem readTokens_steps {ts : List Token} {a : Atom} {body : List Element} :
    (readTokens ts).result = .ok (a, body) ↔
      ∃ head rest, splitRule ts = .ok (head, rest) ∧ readHead head = .ok a ∧ rest ≠ []
        ∧ (readBody 0 (segments 0 rest)).result = .ok body ∧ checkCounts body = .ok () := by
  constructor
  · intro h
    unfold readTokens at h
    split at h
    · cases h
    · next head rest hsplit =>
      dsimp only at h
      split at h
      · cases h
      · next a' hhead =>
        split at h
        · cases h
        · next hne =>
          obtain ⟨elements, hbody, h⟩ := bind_eq_ok_iff.1 h
          obtain ⟨⟨⟩, hcounts, h⟩ := bind_eq_ok_iff.1 h
          obtain ⟨rfl, rfl⟩ := Prod.mk.inj (Except.ok.inj h)
          exact ⟨head, rest, hsplit, hhead, hne, hbody, hcounts⟩
  · rintro ⟨head, rest, hsplit, hhead, hne, hbody, hcounts⟩
    unfold readTokens
    rw [hsplit]
    dsimp only
    rw [hhead]
    dsimp only
    rw [if_neg hne]
    exact bind_eq_ok_iff.2 ⟨body, hbody, bind_eq_ok_iff.2 ⟨(), hcounts, rfl⟩⟩

/-- The tokens of a rule, cut at the separator and the dot. -/
theorem map_unplaced_eq_rule_iff {ts : List Token} {form : RuleForm} :
    ts.map unplaced = form.tokens ↔
      ∃ head i body d, ts = head ++ i :: (body ++ [d]) ∧ i.kind = .implies ∧ d.kind = .dot
        ∧ head.map unplaced = form.head.tokens
        ∧ body.map unplaced = joined (form.body.map ElementForm.tokens) := by
  constructor
  · intro h
    obtain ⟨head, rest, rfl, hhead, h⟩ := List.map_eq_append_iff.1 h
    obtain ⟨i, rest, rfl, hi, h⟩ := List.map_eq_cons_iff.1 h
    obtain ⟨body, last, rfl, hbody, hlast⟩ := List.map_eq_append_iff.1 h
    obtain ⟨d, rfl, hd⟩ := List.map_eq_singleton_iff.1 hlast
    exact ⟨head, i, body, d, rfl, unplaced_eq_implies_iff.1 hi, unplaced_eq_dot_iff.1 hd, hhead,
      hbody⟩
  · rintro ⟨head, i, body, d, rfl, hi, hd, hhead, hbody⟩
    rw [List.map_append, List.map_cons, List.map_append, List.map_singleton, hhead, hbody,
      unplaced_eq_implies_iff.2 hi, unplaced_eq_dot_iff.2 hd]
    rfl

/-- Around a balanced head, a line is balanced iff its body is. -/
theorem balanced_line_iff {head body : List Token} {i d : Token} (hi : i.kind = .implies)
    (hd : d.kind = .dot) (hhead : Balanced head) :
    Balanced (head ++ i :: (body ++ [d])) ↔ Balanced body := by
  have hturns : turn i = 0 ∧ turn d = 0 := by simp [turn, hi, hd]
  obtain ⟨hstays, hzero⟩ := hhead
  unfold Balanced
  simp only [stays_append, stays_cons, stays_nil, nesting_append, nesting_cons, nesting_nil,
    hzero, hturns, Int.add_zero, Int.zero_add, and_iff_right hstays,
    and_iff_right (Int.le_refl 0)]
  constructor
  · rintro ⟨⟨hbody, -⟩, hsum⟩
    exact ⟨hbody, hsum⟩
  · rintro ⟨hbody, hsum⟩
    exact ⟨⟨hbody, by omega, by omega⟩, hsum⟩

section Body

variable {form : RuleForm} {rest : List Token}

/-- Tokens of the body of a valid form are balanced, and cut into those of its elements. -/
theorem cut_body (hvalid : form.Valid)
    (hrest : rest.map unplaced = joined (form.body.map ElementForm.tokens)) :
    Balanced rest ∧ (segments 0 rest).map (List.map unplaced) = form.body.map ElementForm.tokens
      ∧ ∀ s ∈ segments 0 rest, IsPiece s := by
  have hbodyPieces := isPiece_of_mem_body hvalid.body
  -- the commas that join the elements are the ones at which the body is cut
  have hsegments :
      (segments 0 rest).map (List.map unplaced) = form.body.map ElementForm.tokens := by
    rw [← segments_map_unplaced, hrest, hvalid.segments_body]
  refine ⟨?_, hsegments, fun s hs => ?_⟩
  · rw [← balanced_map_unplaced, hrest]
    exact balanced_joined fun s hs => (hbodyPieces s hs).balanced
  · refine isPiece_map_unplaced.1 (hbodyPieces _ ?_)
    rw [← hsegments]
    exact List.mem_map.2 ⟨s, hs, rfl⟩

/-- The body of a valid form is not empty: it has a literal, and that has tokens. -/
theorem body_tokens_ne_nil (hvalid : form.Valid)
    (hrest : rest.map unplaced = joined (form.body.map ElementForm.tokens)) : rest ≠ [] := by
  rintro rfl
  obtain ⟨-, hsegments, -⟩ := cut_body hvalid hrest
  obtain ⟨x, hx, hliteral⟩ := hvalid.literal
  have hmem : x.tokens ∈ form.body.map ElementForm.tokens := List.mem_map.2 ⟨x, hx, rfl⟩
  rw [← hsegments] at hmem
  have hempty : x.tokens = [] := List.mem_singleton.1 hmem
  cases x with
  | literal negated atom =>
    cases negated <;> simp [ElementForm.tokens, AtomForm.tokens] at hempty
  | assign target value => cases hliteral
  | test condition => cases hliteral

end Body

/-- A line is read iff its tokens are those of a valid form, as what the form denotes. -/
theorem readTokens_eq_ok_iff {ts : List Token} {a : Atom} {body : List Element} :
    (readTokens ts).result = .ok (a, body) ↔
      ∃ form : RuleForm, ts.map unplaced = form.tokens ∧ form.Valid
        ∧ a = (form.head.denote 0).1 ∧ body = denoteBody 0 form.body := by
  rw [readTokens_steps]
  constructor
  · rintro ⟨head, rest, hsplit, hhead, hne, hbody, hcounts⟩
    obtain ⟨i, d, rfl, hi, hd, hbalanced, hinner⟩ := splitRule_eq_ok_iff.1 hsplit
    obtain ⟨x, hx, hvalid, hnamed, rfl⟩ := readHead_eq_ok_iff.1 hhead
    -- the line is balanced and so is its head, hence the body and every piece of it
    have hpiece : Balanced head := balanced_map_unplaced.1 (hx ▸ x.isPiece.balanced)
    have hrest := (balanced_line_iff hi hd hpiece).1 hbalanced
    have hpieces : ∀ s ∈ segments 0 rest, IsPiece s := fun s hs =>
      have hflat := flat_of_mem_segments rest s hs
      ⟨balanced_of_mem_segments rest hrest s hs, hflat.1,
        fun t ht => hinner t (List.mem_append_right _ (hflat.2 t ht))⟩
    obtain ⟨xs, hxs, hall, rfl⟩ := (readBody_eq_ok_iff hpieces).1 hbody
    obtain ⟨hpositive, hliteral⟩ := checkCounts_denoteBody_iff.1 hcounts
    refine ⟨⟨x, xs⟩, map_unplaced_eq_rule_iff.2 ⟨head, i, rest, d, rfl, hi, hd, hx, ?_⟩,
      ⟨hvalid, hnamed, hall, hliteral, hpositive⟩, rfl, rfl⟩
    rw [← hxs, joined_segments]
  · rintro ⟨form, htokens, hvalid, rfl, rfl⟩
    obtain ⟨head, i, rest, d, rfl, hi, hd, hhead, hrest⟩ := map_unplaced_eq_rule_iff.1 htokens
    have hheadPiece : IsPiece head := isPiece_map_unplaced.1 (hhead ▸ form.head.isPiece)
    obtain ⟨hrestBalanced, hsegments, hpieces⟩ := cut_body hvalid hrest
    have hinner : ∀ t ∈ head ++ rest, t.kind ≠ .dot ∧ t.kind ≠ .implies := by
      intro t ht
      rcases List.mem_append.1 ht with ht | ht
      · exact hheadPiece.inner t ht
      · exact hvalid.inner_body t.unplaced (hrest ▸ List.mem_map.2 ⟨t, ht, rfl⟩)
    exact ⟨head, rest,
      splitRule_eq_ok_iff.2 ⟨i, d, rfl, hi, hd,
        (balanced_line_iff hi hd hheadPiece.balanced).2 hrestBalanced, hinner⟩,
      readHead_eq_ok_iff.2 ⟨form.head, hhead, hvalid.head, hvalid.named, rfl⟩,
      body_tokens_ne_nil hvalid hrest,
      (readBody_eq_ok_iff hpieces).2 ⟨form.body, hsegments, hvalid.body, rfl⟩,
      checkCounts_denoteBody_iff.2 ⟨hvalid.positive, hvalid.literal⟩⟩

/-- A form derives a text: the trimmed text consists of its tokens, and it is valid. -/
def Derives (line : Int) (text : String) (form : RuleForm) : Prop :=
  ∃ tokens, Token.tokenize (Text.trim text) line = .ok tokens
    ∧ tokens.dropLast.map unplaced = form.tokens ∧ form.Valid

/-- At most one form derives a text. -/
theorem Derives.unique {line : Int} {text : String} {form other : RuleForm}
    (h : Derives line text form) (hother : Derives line text other) : other = form := by
  obtain ⟨tokens, htokens, hform, hvalid⟩ := h
  obtain ⟨tokens', htokens', hform', hvalid'⟩ := hother
  obtain rfl : tokens = tokens' := Except.ok.inj (htokens.symm.trans htokens')
  exact RuleForm.eq_of_tokens_eq hvalid' hvalid (hform'.symm.trans hform)

/-- A text is read as a rule iff a form derives it that denotes the rule. -/
theorem read_eq_ok_iff {line : Int} {text : String} {r : Rule} :
    (read line text).result = .ok r ↔
      ∃ form, Derives line text form ∧ form.denote line (Text.trim text) = r := by
  unfold read
  dsimp only
  split
  · next fault htokens =>
    refine iff_of_false nofun ?_
    rintro ⟨form, ⟨tokens, hok, -⟩, -⟩
    rw [htokens] at hok
    cases hok
  · next tokens htokens =>
    rw [map_eq_ok_iff]
    constructor
    · rintro ⟨⟨head, body⟩, hread, rfl⟩
      obtain ⟨form, hform, hvalid, rfl, rfl⟩ := readTokens_eq_ok_iff.1 hread
      exact ⟨form, ⟨tokens, htokens, hform, hvalid⟩, rfl⟩
    · rintro ⟨form, ⟨tokens', hok, hform, hvalid⟩, rfl⟩
      obtain rfl : tokens = tokens' := Except.ok.inj (htokens.symm.trans hok)
      exact ⟨_, readTokens_eq_ok_iff.2 ⟨form, hform, hvalid, rfl, rfl⟩, rfl⟩

/-- **The parser accepts exactly the grammar.** A text in valid UTF-8 is parsed iff some form
derives it; there is then only one such form, and the rule is what it denotes. -/
theorem parse_reads_grammar (symbols : SymbolTable) (line : Int) (text : String) :
    ((∃ r, (parse symbols line text).1 = .ok r) ↔ ∃ form, Derives line text form)
      ∧ ∀ form, Derives line text form →
        (parse symbols line text).1 = .ok (form.denote line (Text.trim text))
          ∧ ∀ other, Derives line text other → other = form := by
  refine ⟨⟨?_, ?_⟩, fun form hform => ⟨read_eq_ok_iff.2 ⟨form, hform, rfl⟩,
    fun other hother => hform.unique hother⟩⟩
  · rintro ⟨r, hread⟩
    obtain ⟨form, hform, -⟩ := read_eq_ok_iff.1 hread
    exact ⟨form, hform⟩
  · rintro ⟨form, hform⟩
    exact ⟨_, read_eq_ok_iff.2 ⟨form, hform, rfl⟩⟩

/-- A rule with white space around it and an element of each kind but a test. -/
def roads : String := "  far(X, D) :- road(X, _, -7), ! closed(X), D = 2 * f(X, 1) .\n"

theorem parse_reads_grammar_roads :
    ∃ r, (parse .empty 1 roads).1 = .ok r ∧ r.body.length = 3
      ∧ ∃ form, Derives 1 roads form ∧ form.denote 1 (Text.trim roads) = r := by
  have hread : (match (parse .empty 1 roads).1 with
      | .ok r => decide (r.body.length = 3)
      | .error _ => false) = true := by
    decide +kernel
  split at hread
  case h_2 => cases hread
  case h_1 r hr =>
    obtain ⟨hiff, hdenote⟩ := parse_reads_grammar .empty 1 roads
    obtain ⟨form, hform⟩ := hiff.1 ⟨r, hr⟩
    have hsame := (hdenote form hform).1
    rw [hr] at hsame
    exact ⟨r, hr, of_decide_eq_true hread, form, hform, (Except.ok.inj hsame).symm⟩

end RulePlan.Rule
