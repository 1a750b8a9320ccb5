import RulePlan.Proofs.RuleParsing
import RulePlan.Proofs.TokenSpelling

/-!
# RulePlan.Proofs.RenderedRule — a rule is read back from its canonical text

A rule that was read can be written down again. Its text then need not be the one it was read from:
anonymous variables have got names, numbers have lost their leading zeros, negation is spelled
`not`, and all spacing is new. The canonical form of a form takes the first two changes into
account. It is valid, denotes the same head and the same body wherever counting starts, and its
tokens are what the written text scans to. Reading the text of a rule thus gives the rule, and
enters no new predicate into the symbol table.
-/

namespace RulePlan

/-! ## Canonical forms -/

namespace Grammar

open Rule Token

/-- The form in which an argument is written. -/
def ArgForm.ofArgument : Argument → ArgForm
  | .var n => .name n
  | .const v =>
    if v.toInt < 0 then .negative (Text.Decimal.ofNat v.toInt.natAbs)
    else .number (Text.Decimal.ofNat v.toInt.natAbs)

/-- The form in which an atom is written. -/
def AtomForm.ofAtom (a : Atom) : AtomForm := ⟨a.predicate, a.args.map ArgForm.ofArgument⟩

/-- The form in which an element is written, `n` anonymous variables standing before it. -/
def ElementForm.canonical (n : Nat) : ElementForm → ElementForm
  | .literal negated atom => .literal negated (.ofAtom (atom.denote n).1)
  | .assign target value => .assign target value
  | .test condition => .test condition

/-- The forms in which the elements of a body are written. -/
def canonicalBody (n : Nat) : List ElementForm → List ElementForm
  | [] => []
  | e :: es => e.canonical n :: canonicalBody (e.denote n).2 es

/-- The form in which a rule is written. -/
def RuleForm.canonical (r : RuleForm) : RuleForm :=
  ⟨.ofAtom (r.head.denote 0).1, canonicalBody 0 r.body⟩

theorem toList_ofNat (n : Nat) : (Text.Decimal.ofNat n).toList = Text.Decimal.digits n :=
  String.toList_ofList

theorem value_ofNat (n : Nat) : Text.Decimal.value (Text.Decimal.ofNat n).toList = n := by
  rw [toList_ofNat, Text.Decimal.value_digits]

/-- No argument of a body is called `_`: anonymous variables get a number. -/
theorem ArgForm.denote_ne_anonymous {x : ArgForm} {n : Nat} :
    (x.denote n).1 ≠ .var "_" := by
  cases x with
  | name s =>
    rw [ArgForm.denote]
    split
    · intro h
      have hempty : Text.Decimal.ofNat (n + 1) = "" :=
        String.append_eq_left_iff.1 (Argument.var.inj h)
      have hdigits := Text.Decimal.digits_ne_nil (n + 1)
      rw [Text.Decimal.ofNat] at hempty
      exact hdigits (String.ofList_eq_empty_iff.1 hempty)
    · next hs => exact fun h => hs (Argument.var.inj h)
  | number digits =>
    intro h
    cases h
  | negative digits =>
    intro h
    cases h

theorem denoteArgs_ne_anonymous {n : Nat} {xs : List ArgForm} :
    ∀ a ∈ (denoteArgs n xs).1, a ≠ .var "_" := by
  induction xs generalizing n with
  | nil => simp [denoteArgs]
  | cons x xs ih =>
    intro a ha
    rcases List.mem_cons.1 ha with rfl | ha
    · exact ArgForm.denote_ne_anonymous
    · exact ih a ha

/-- The written form of an argument stands for it, and counts no anonymous variable. -/
theorem ArgForm.denote_ofArgument {a : Argument} (h : a ≠ .var "_") (n : Nat) :
    (ArgForm.ofArgument a).denote n = (a, n) := by
  cases a with
  | var s => rw [ArgForm.ofArgument, ArgForm.denote, if_neg fun hs => h (congrArg Argument.var hs)]
  | const v =>
    rw [ArgForm.ofArgument]
    split
    · next hneg =>
      have hv : -((v.toInt.natAbs : Nat) : Int) = v.toInt := by omega
      rw [ArgForm.denote, value_ofNat, hv, Int64.ofInt_toInt]
    · next hneg =>
      have hv : ((v.toInt.natAbs : Nat) : Int) = v.toInt := by omega
      rw [ArgForm.denote, value_ofNat, hv, Int64.ofInt_toInt]

theorem ArgForm.valid_ofArgument (a : Argument) : (ArgForm.ofArgument a).Valid := by
  cases a with
  | var s => trivial
  | const v =>
    have hlow := v.le_toInt
    have hhigh := v.toInt_lt
    rw [ArgForm.ofArgument]
    split
    · rw [ArgForm.Valid, value_ofNat]
      omega
    · rw [ArgForm.Valid, value_ofNat]
      omega

theorem AtomForm.denote_ofAtom {a : Atom} (h : ∀ x ∈ a.args, x ≠ .var "_") (n : Nat) :
    (AtomForm.ofAtom a).denote n = (a, n) := by
  have hargs : denoteArgs n (a.args.map ArgForm.ofArgument) = (a.args, n) := by
    generalize a.args = args at h
    induction args with
    | nil => rfl
    | cons x xs ih =>
      have hx := ArgForm.denote_ofArgument (h x List.mem_cons_self) n
      rw [List.map_cons, denoteArgs, hx, ih fun y hy => h y (List.mem_cons_of_mem x hy)]
  rw [AtomForm.denote, AtomForm.ofAtom, hargs]

theorem ElementForm.denote_canonical (e : ElementForm) (n m : Nat) :
    (e.canonical n).denote m = ((e.denote n).1, m) := by
  cases e with
  | literal negated atom =>
    have hatom := AtomForm.denote_ofAtom (a := (atom.denote n).1) denoteArgs_ne_anonymous m
    rw [ElementForm.canonical, ElementForm.denote, hatom]
    rfl
  | assign target value => rfl
  | test condition => rfl

theorem denoteBody_canonicalBody (es : List ElementForm) (n m : Nat) :
    denoteBody m (canonicalBody n es) = denoteBody n es := by
  induction es generalizing n m with
  | nil => rfl
  | cons e es ih =>
    rw [canonicalBody, denoteBody, denoteBody, ElementForm.denote_canonical, ih]

theorem mem_canonicalBody {x : ElementForm} {n : Nat} {es : List ElementForm}
    (h : x ∈ canonicalBody n es) : ∃ e ∈ es, ∃ m, x = e.canonical m := by
  induction es generalizing n with
  | nil => cases h
  | cons e es ih =>
    rcases List.mem_cons.1 h with rfl | h
    · exact ⟨e, List.mem_cons_self, n, rfl⟩
    · obtain ⟨f, hf, m, rfl⟩ := ih h
      exact ⟨f, List.mem_cons_of_mem e hf, m, rfl⟩

/-- A property of elements that writing keeps is counted alike. -/
theorem countP_canonicalBody {p : ElementForm → Bool} (h : ∀ e n, p (e.canonical n) = p e)
    (n : Nat) (es : List ElementForm) : (canonicalBody n es).countP p = es.countP p := by
  induction es generalizing n with
  | nil => rfl
  | cons e es ih => rw [canonicalBody, List.countP_cons, List.countP_cons, h, ih]

theorem RuleForm.Valid.canonical {r : RuleForm} (h : r.Valid) : r.canonical.Valid where
  head := by
    intro x hx
    obtain ⟨a, -, rfl⟩ := List.mem_map.1 hx
    exact ArgForm.valid_ofArgument a
  named := by
    intro x hx hname
    -- `_` would count as an anonymous variable, but the form of an argument counts none
    obtain ⟨a, ha, rfl⟩ := List.mem_map.1 hx
    have hsame := ArgForm.denote_ofArgument (denoteArgs_ne_anonymous a ha) 0
    rw [hname] at hsame
    simp [ArgForm.denote] at hsame
  body := by
    intro x hx
    obtain ⟨e, he, m, rfl⟩ := mem_canonicalBody hx
    cases e with
    | literal negated atom =>
      intro y hy
      obtain ⟨a, -, rfl⟩ := List.mem_map.1 hy
      exact ArgForm.valid_ofArgument a
    | assign target value => exact h.body _ he
    | test condition => exact h.body _ he
  literal := by
    rw [← List.countP_pos_iff]
    rw [RuleForm.canonical, countP_canonicalBody (by rintro (_ | _ | _) n <;> rfl),
      List.countP_pos_iff]
    exact h.literal
  positive := by
    rw [RuleForm.canonical, countP_canonicalBody (by rintro (_ | _ | _) n <;> rfl)]
    exact h.positive

/-! ## The written text -/

theorem isDigit_of_mem_digits {n : Nat} : ∀ c ∈ Text.Decimal.digits n, isDigit c = true := by
  have hdigit : ∀ m < 10, isDigit (Text.Decimal.digitChar m) = true := by decide
  fun_induction Text.Decimal.digits n with
  | case1 n h => simpa using hdigit n h
  | case2 n h ih =>
    intro c hc
    rcases List.mem_append.1 hc with hc | hc
    · exact ih c hc
    · rw [List.mem_singleton.1 hc]
      exact hdigit _ (Nat.mod_lt n (by decide))

theorem lexical_number (n : Nat) : Lexical (int (Text.Decimal.ofNat n)) := by
  intro rest hrest
  have htext : (int (Text.Decimal.ofNat n)).text.toList = Text.Decimal.digits n := toList_ofNat n
  rw [htext]
  exact munch_digits (Text.Decimal.digits_ne_nil n) isDigit_of_mem_digits (hrest.endsBefore _)

/-- The number of an anonymous variable makes a name of it. -/
theorem lexical_anonymous (n : Nat) : Lexical (ident ("_" ++ Text.Decimal.ofNat n)) := by
  intro rest hrest
  have htext : (ident ("_" ++ Text.Decimal.ofNat n)).text.toList
      = '_' :: Text.Decimal.digits n := by
    change ("_" ++ Text.Decimal.ofNat n).toList = _
    rw [String.toList_append, toList_ofNat]
    rfl
  have hkind : wordKind ('_' :: Text.Decimal.digits n) = .ident := if_neg (by simp)
  rw [htext, munch_word rfl (fun c hc => isNamePart_of_isDigit (isDigit_of_mem_digits c hc))
    (hrest.endsBefore _), hkind]
  rfl

/-- An argument whose name, if it is a variable, is a name of the language. -/
def Named (a : Argument) : Prop := ∀ n, a = .var n → Lexical (ident n)

theorem spells_argument {a : Argument} (h : Named a) :
    Spells a.render (ArgForm.ofArgument a).tokens := by
  cases a with
  | var n => exact spells_token (h n rfl)
  | const v =>
    have hnumber := spells_token (lexical_number v.toInt.natAbs)
    rw [Argument.render, Text.Decimal.ofInt64, Text.Decimal.ofInt, ArgForm.ofArgument]
    split
    · intro rest us hrest hdelimited
      have hminus := (hnumber rest us hrest hdelimited).minus
      have htext : (int (Text.Decimal.ofNat v.toInt.natAbs)).text.toList
          = Text.Decimal.digits v.toInt.natAbs := toList_ofNat _
      rw [htext] at hminus
      rw [String.toList_ofList]
      exact hminus
    · exact hnumber

theorem forall₂_spells_args {args : List Argument} (h : ∀ x ∈ args, Named x) :
    List.Forall₂ Spells (args.map Argument.render)
      ((args.map ArgForm.ofArgument).map ArgForm.tokens) := by
  induction args with
  | nil => exact .nil
  | cons x xs ih =>
    exact .cons (spells_argument (h x List.mem_cons_self))
      (ih fun y hy => h y (List.mem_cons_of_mem x hy))

theorem spells_atom {a : Atom} (hname : Lexical (ident a.predicate)) (h : ∀ x ∈ a.args, Named x) :
    Spells a.render (AtomForm.ofAtom a).tokens := by
  have hargs := spells_intercalate (forall₂_spells_args h)
  intro rest us hrest hdelimited
  have hclose := hrest.token lexical_rightParen (.inl hdelimited)
  have hinner := hargs _ _ hclose (delimited_cons (by decide) rest)
  have hopen := hinner.token lexical_leftParen (.inr rfl)
  have hall := hopen.token hname (.inl (delimited_cons (by decide) _))
  rw [AtomForm.tokens, AtomForm.ofAtom, Atom.render]
  simp only [String.toList_append, List.append_assoc, List.cons_append]
  exact hall

/-- The text of an accepted expression is the spelling of its tokens. -/
theorem source_expression {ts : List Token} (h : IsExpression ts) :
    (expression ts).source = Expression.spell ts := by
  obtain ⟨e, he⟩ := h.accepted
  rw [expression_eq he]
  unfold Expression.ofTokens? at he
  obtain ⟨reads, -, he⟩ := Option.bind_eq_some_iff.1 he
  obtain rfl := Option.some.inj he
  rfl

/-- Tokens as a scan leaves them, without places. -/
def IsScanned (ts : List Token) : Prop := ∀ t ∈ ts, Lexical t ∧ t.unplaced = t

theorem IsScanned.spells {ts : List Token} (h : IsScanned ts) :
    Spells (Expression.spell ts) ts := by
  have hsame : ts.map unplaced = ts := by
    conv_rhs => rw [← List.map_id ts]
    exact List.map_congr_left fun t ht => (h t ht).2
  have hspells := spells_expression fun t ht => (h t ht).1
  rwa [hsame] at hspells

theorem IsScanned.mono {ts us : List Token} (h : IsScanned ts) (hsub : ∀ t ∈ us, t ∈ ts) :
    IsScanned us :=
  fun t ht => h t (hsub t ht)

theorem mem_joined_of_mem {pieces : List (List Token)} {s : List Token} {t : Token}
    (hs : s ∈ pieces) (ht : t ∈ s) : t ∈ joined pieces := by
  induction pieces with
  | nil => cases hs
  | cons u us ih =>
    cases us with
    | nil =>
      rw [joined, List.intercalate_singleton]
      rwa [List.mem_singleton.1 hs] at ht
    | cons v vs =>
      rw [joined, List.intercalate_cons_cons, List.append_assoc]
      rcases List.mem_cons.1 hs with rfl | hs
      · exact List.mem_append_left _ ht
      · exact List.mem_append_right _ (List.mem_append_right _ (ih hs))

/-- The arguments of scanned tokens have names of the language. -/
theorem named_denoteArgs {xs : List ArgForm} (h : ∀ x ∈ xs, IsScanned x.tokens) (n : Nat) :
    ∀ a ∈ (denoteArgs n xs).1, Named a := by
  induction xs generalizing n with
  | nil => simp [denoteArgs]
  | cons x xs ih =>
    intro a ha
    rcases List.mem_cons.1 ha with rfl | ha
    · have hx := h x List.mem_cons_self
      cases x with
      | name s =>
        rw [ArgForm.denote]
        split
        · rintro m hm
          rw [← Argument.var.inj hm]
          exact lexical_anonymous (n + 1)
        · rintro m hm
          rw [← Argument.var.inj hm]
          exact (hx (ident s) List.mem_cons_self).1
      | number digits =>
        intro m hm
        cases hm
      | negative digits =>
        intro m hm
        cases hm
    · exact ih (fun y hy => h y (List.mem_cons_of_mem x hy)) _ a ha

/-- The names in an atom are names of the language. -/
structure NamedAtom (a : Atom) : Prop where
  predicate : Lexical (ident a.predicate)
  args : ∀ x ∈ a.args, Named x

/-- An atom of scanned tokens has names of the language. -/
theorem namedAtom_denote {x : AtomForm} (h : IsScanned x.tokens) (n : Nat) :
    NamedAtom (x.denote n).1 := by
  refine ⟨(h (ident x.name) List.mem_cons_self).1, named_denoteArgs (fun y hy => ?_) n⟩
  refine h.mono fun t ht => ?_
  refine List.mem_cons_of_mem _ (List.mem_cons_of_mem _ (List.mem_append_left _ ?_))
  exact mem_joined_of_mem (List.mem_map.2 ⟨y, hy, rfl⟩) ht

/-- An atom of scanned tokens is read back from its text. -/
theorem spells_denoted_atom {x : AtomForm} (h : IsScanned x.tokens) (n : Nat) :
    Spells (x.denote n).1.render (AtomForm.ofAtom (x.denote n).1).tokens :=
  spells_atom (namedAtom_denote h n).predicate (namedAtom_denote h n).args

theorem IsScanned.head {form : RuleForm} (h : IsScanned form.tokens) :
    IsScanned form.head.tokens :=
  h.mono fun _ ht => List.mem_append_left _ ht

theorem IsScanned.element {form : RuleForm} (h : IsScanned form.tokens) :
    ∀ e ∈ form.body, IsScanned e.tokens := by
  intro e he
  refine h.mono fun t ht => ?_
  have hjoined := mem_joined_of_mem (List.mem_map.2 ⟨e, he, rfl⟩) ht
  exact List.mem_append_right _ (List.mem_cons_of_mem _ (List.mem_append_left _ hjoined))

theorem spells_element {e : ElementForm} (hvalid : e.Valid) (h : IsScanned e.tokens) (n : Nat) :
    Spells (e.denote n).1.render (e.canonical n).tokens := by
  cases e with
  | literal negated atom =>
    have hatom := spells_denoted_atom (x := atom)
      (h.mono fun t ht => List.mem_append_right _ ht) n
    cases negated with
    | false =>
      rw [ElementForm.denote, Element.render, Literal.render, if_neg Bool.false_ne_true,
        String.empty_append]
      exact hatom
    | true =>
      have hall := (spells_token lexical_negation).append hatom.space
        fun rest _ => delimited_space _ rest
      rw [ElementForm.denote, Element.render, Literal.render, if_pos rfl]
      rw [← String.append_assoc] at hall
      exact hall
  | assign target value =>
    have htarget := spells_token (h (ident target) List.mem_cons_self).1
    have hvalue : IsScanned value :=
      h.mono fun t ht => List.mem_cons_of_mem _ (List.mem_cons_of_mem _ ht)
    have hequals := (spells_token lexical_equals).append hvalue.spells.space
      fun rest _ => delimited_space _ rest
    have hall := htarget.append hequals.space fun rest _ => delimited_space _ rest
    have htext : ∀ u : String, " = " ++ u = " " ++ ("=" ++ (" " ++ u)) := by
      intro u
      rw [← String.append_assoc, ← String.append_assoc]
      rfl
    rw [ElementForm.denote, Element.render, source_expression hvalid, String.append_assoc, htext]
    exact hall
  | test condition =>
    rw [ElementForm.denote, Element.render, source_expression hvalid.toIsExpression]
    exact h.spells

end Grammar

namespace Rule

open Grammar Token

theorem forall₂_spells_body {es : List ElementForm} (hvalid : ∀ e ∈ es, e.Valid)
    (h : ∀ e ∈ es, IsScanned e.tokens) (n : Nat) :
    List.Forall₂ Spells ((denoteBody n es).map Element.render)
      ((canonicalBody n es).map ElementForm.tokens) := by
  induction es generalizing n with
  | nil => exact .nil
  | cons e es ih =>
    exact .cons (spells_element (hvalid e List.mem_cons_self) (h e List.mem_cons_self) n)
      (ih (fun f hf => hvalid f (List.mem_cons_of_mem e hf))
        (fun f hf => h f (List.mem_cons_of_mem e hf)) _)

/-- The text of a rule scans to the tokens of its canonical form. -/
theorem scans_render {form : RuleForm} (hvalid : form.Valid) (h : IsScanned form.tokens)
    (line : Int) (text : String) :
    Scans (form.denote line text).render.toList form.canonical.tokens := by
  have hhead := spells_denoted_atom h.head 0
  have hbody := spells_intercalate (forall₂_spells_body hvalid.body h.element 0)
  -- from the end of the text to its start, each token in front of what scans already
  have hend : Delimited [] := by simp [Delimited]
  have hdot := scans_nil.token lexical_dot (.inl hend)
  have hrest := hbody _ _ hdot (delimited_cons (by decide) [])
  have himplies := hrest.space.token lexical_implies (.inl (delimited_cons (by decide) _))
  have hall := hhead _ _ himplies.space (delimited_cons (by decide) _)
  rw [RuleForm.denote, render]
  simp only [String.toList_append, List.append_assoc]
  exact hall

/-- A written rule starts with a name and ends with a dot, so there is nothing to trim. -/
theorem trim_render {form : RuleForm} (h : IsScanned form.tokens) (line : Int) (text : String) :
    Text.trim (form.denote line text).render = (form.denote line text).render := by
  obtain ⟨c, cs, hname, hblank⟩ :=
    (h (ident form.head.name) List.mem_cons_self).1.exists_cons
  have hpredicate : (form.denote line text).head.predicate.toList = c :: cs := hname
  refine Text.trim_eq (?_ : _ = some c) (?_ : _ = some '.') hblank (by decide)
  · rw [render, Atom.render]
    simp only [String.toList_append, List.append_assoc, hpredicate]
    rfl
  · rw [render, String.toList_append]
    exact List.getLast?_concat

theorem isScanned_of_tokenize {text : String} {line : Int} {tokens : List Token}
    (h : tokenize text line = .ok tokens) : IsScanned (tokens.dropLast.map unplaced) := by
  intro t ht
  refine ⟨lexical_of_tokenize h t ht, ?_⟩
  obtain ⟨u, -, rfl⟩ := List.mem_map.1 ht
  exact congrArg (fun s => Token.mk u.kind s 0 0) (text_unplaced u)

/-- The canonical form of a text derives what is written for it. -/
theorem Derives.canonical {line : Int} {text : String} {form : RuleForm}
    (h : Derives line text form) (line' : Int) :
    Derives line' (form.denote line (Text.trim text)).render form.canonical := by
  obtain ⟨tokens, htokens, hform, hvalid⟩ := h
  have hscanned : IsScanned form.tokens := hform ▸ isScanned_of_tokenize htokens
  obtain ⟨tokens', htokens', hsame⟩ :=
    (scans_render hvalid hscanned line (Text.trim text)).tokenize line'
  refine ⟨tokens', ?_, hsame, hvalid.canonical⟩
  rw [trim_render hscanned]
  exact htokens'

/-- What the canonical form denotes, line and text aside, is what the form denotes. -/
theorem denote_canonical (form : RuleForm) (line line' : Int) (text text' : String) :
    (form.canonical.denote line' text').head = (form.denote line text).head
      ∧ (form.canonical.denote line' text').body = (form.denote line text).body := by
  have hhead := congrArg Prod.fst
    (AtomForm.denote_ofAtom (a := (form.head.denote 0).1) denoteArgs_ne_anonymous 0)
  exact ⟨hhead, denoteBody_canonicalBody form.body 0 0⟩

/-! ## Predicates of a rule that is read -/

theorem predicate_of_readAtom {fresh f : Option Nat} {ts : List Token} {a : Atom}
    (h : readAtom fresh ts = .ok (a, f)) : (atomShape? ts).map Prod.fst = some a.predicate := by
  unfold readAtom at h
  split at h
  · next name hshape =>
    obtain ⟨rfl, -⟩ := Prod.mk.inj (Except.ok.inj h)
    rw [hshape]
    rfl
  · next name inner _ hshape =>
    obtain ⟨⟨args, f'⟩, -, h⟩ := bind_eq_ok_iff.1 h
    obtain ⟨rfl, -⟩ := Prod.mk.inj (Except.ok.inj h)
    rw [hshape]
    rfl
  · split at h <;> cases h

/-- The predicates that a body names. -/
def literalNames (body : List Element) : List String :=
  (literalsOf body).map fun l => l.atom.predicate

theorem elementName?_of_readElement {n n' : Nat} {ts : List Token} {e : Element}
    (h : readElement n ts = .ok (e, n')) : (elementName? ts).toList = literalNames [e] := by
  unfold readElement at h
  split at h
  · next negated rest hliteral =>
    obtain ⟨⟨atom, fresh⟩, hatom, h⟩ := bind_eq_ok_iff.1 h
    obtain ⟨rfl, -⟩ := Prod.mk.inj (Except.ok.inj h)
    obtain ⟨⟨name, inner⟩, hshape, hname⟩ := Option.map_eq_some_iff.1 (predicate_of_readAtom hatom)
    simp [elementName?, hliteral, hshape, literalNames, literalsOf, ← hname]
  · next hliteral =>
    obtain ⟨e', hformula, h⟩ := bind_eq_ok_iff.1 h
    obtain ⟨rfl, -⟩ := Prod.mk.inj (Except.ok.inj h)
    have hnone : elementName? ts = none := by simp [elementName?, hliteral]
    rw [hnone]
    rcases readFormula_eq_ok_iff.1 hformula with ⟨_, _, _, -, -, rfl⟩ | ⟨-, -, -, _, -, rfl⟩ <;> rfl

theorem names_of_readBody {ss : List (List Token)} {n : Nat} {body : List Element}
    (h : (readBody n ss).result = .ok body) : (readBody n ss).names = literalNames body := by
  induction ss generalizing n body with
  | nil =>
    obtain rfl := Except.ok.inj h
    rfl
  | cons s ss ih =>
    obtain ⟨e, n', rest, hread, hmore, rfl⟩ := readBody_cons_eq_ok_iff.1 h
    rw [readBody, hread]
    dsimp only
    rw [elementName?_of_readElement hread, ih hmore, literalNames, literalNames, literalNames,
      literalsOf_cons e rest, List.map_append]

/-- The names met on the way to a rule are those of its head and its literals. -/
theorem names_of_readTokens {ts : List Token} {a : Atom} {body : List Element}
    (h : (readTokens ts).result = .ok (a, body)) :
    (readTokens ts).names = a.predicate :: literalNames body := by
  obtain ⟨head, rest, hsplit, hhead, hne, hbody, -⟩ := readTokens_steps.1 h
  have hname : ((atomShape? head).map Prod.fst).toList = [a.predicate] := by
    unfold readHead at hhead
    split at hhead
    · cases hhead
    · obtain ⟨⟨atom, f⟩, hatom, rfl⟩ := map_eq_ok_iff.1 hhead
      rw [predicate_of_readAtom hatom]
      rfl
  unfold readTokens
  rw [hsplit]
  dsimp only
  rw [hhead]
  dsimp only
  rw [if_neg hne]
  dsimp only
  rw [hname, names_of_readBody hbody, List.singleton_append]

theorem names_of_read {line : Int} {text : String} {r : Rule}
    (h : (read line text).result = .ok r) :
    (read line text).names = r.head.predicate :: literalNames r.body := by
  unfold read at h ⊢
  dsimp only at h ⊢
  split at h
  · cases h
  · next tokens htokens =>
    obtain ⟨⟨head, body⟩, hread, rfl⟩ := map_eq_ok_iff.1 h
    rw [names_of_readTokens hread]

end Rule

/-! ## Known names -/

namespace SymbolTable

theorem names_intern_subset {t : SymbolTable} {name x : String} (h : x ∈ t.names) :
    x ∈ (t.intern name).names := by
  unfold intern
  split
  · exact h
  · exact List.mem_append_left _ h

theorem mem_intern (t : SymbolTable) (name : String) : name ∈ (t.intern name).names := by
  unfold intern
  split
  · next hmem => exact hmem
  · exact List.mem_append_right _ List.mem_cons_self

theorem names_internAll_subset {names : List String} {t : SymbolTable} {x : String}
    (h : x ∈ t.names) : x ∈ (t.internAll names).names := by
  induction names generalizing t with
  | nil => exact h
  | cons name names ih => exact ih (names_intern_subset h)

theorem mem_internAll {names : List String} {t : SymbolTable} {x : String} (h : x ∈ names) :
    x ∈ (t.internAll names).names := by
  induction names generalizing t with
  | nil => cases h
  | cons name names ih =>
    rcases List.mem_cons.1 h with rfl | h
    · exact names_internAll_subset (t := t.intern x) (mem_intern t x)
    · exact ih h

/-- Names that are known leave a table as it is. -/
theorem internAll_of_subset {names : List String} {t : SymbolTable}
    (h : ∀ x ∈ names, x ∈ t.names) : t.internAll names = t := by
  induction names with
  | nil => rfl
  | cons name names ih =>
    have hname : t.intern name = t := dif_pos (h name List.mem_cons_self)
    rw [internAll, List.foldl_cons, hname]
    exact ih fun x hx => h x (List.mem_cons_of_mem name hx)

end SymbolTable

namespace Rule

open Grammar Token

/-- **Reading a written rule gives the rule back.** The text of a rule that was read from some text,
in valid UTF-8, is read in turn, with the symbol table that the first reading left, as a rule with
the same head and the same body, hence of the same type; it names no new predicate. -/
theorem parse_render {symbols : SymbolTable} {line : Int} {text : String} {r : Rule}
    (h : (parse symbols line text).1 = .ok r) (line' : Int) :
    ∃ r', parse (parse symbols line text).2 line' r.render
        = (.ok r', (parse symbols line text).2)
      ∧ r'.head = r.head ∧ r'.body = r.body ∧ r'.type = r.type := by
  obtain ⟨form, hform, rfl⟩ := read_eq_ok_iff.1 h
  have hread := read_eq_ok_iff.2 ⟨form.canonical, hform.canonical line', rfl⟩
  obtain ⟨hhead, hbody⟩ := denote_canonical form line line' (Text.trim text)
    (Text.trim (form.denote line (Text.trim text)).render)
  refine ⟨_, Prod.ext hread ?_, hhead, hbody, ?_⟩
  · change (symbols.internAll (read line text).names).internAll _
      = symbols.internAll (read line text).names
    rw [names_of_read h, names_of_read hread, hhead, hbody]
    exact SymbolTable.internAll_of_subset fun x hx => SymbolTable.mem_internAll hx
  · rw [type, type, literals, literals, hbody]

/-- A rule that changes when it is written: leading zeros, both spellings of negation, unnamed
variables, the least constant, and an expression with its own spacing. -/
def unwritten : String :=
  "\tq( X,Y ):-!  p(_,-9223372036854775808 ,007),r(X, _ ,Y),f( X,( 2 ) )<=X %3,not s(). "

theorem parse_render_unwritten :
    ∃ r r', (parse .empty 3 unwritten).1 = .ok r
      ∧ r.render = "q(X, Y) :- not p(_1, -9223372036854775808, 7), r(X, _2, Y), "
        ++ "f(X, (2)) <= X % 3, not s()."
      ∧ parse (parse .empty 3 unwritten).2 1 r.render = (.ok r', (parse .empty 3 unwritten).2)
      ∧ r'.head = r.head ∧ r'.body = r.body ∧ r'.type = 3 := by
  have hread : (match (parse .empty 3 unwritten).1 with
      | .ok r => decide (r.render = "q(X, Y) :- not p(_1, -9223372036854775808, 7), r(X, _2, Y), "
        ++ "f(X, (2)) <= X % 3, not s()." ∧ r.type = 3)
      | .error _ => false) = true := by
    decide +kernel
  split at hread
  case h_2 => cases hread
  case h_1 r hr =>
    obtain ⟨htext, htype⟩ := of_decide_eq_true hread
    obtain ⟨r', hparse, hhead, hbody, hsame⟩ := parse_render hr 1
    exact ⟨r, r', hr, htext, hparse, hhead, hbody, hsame.trans htype⟩

end Rule

end RulePlan
