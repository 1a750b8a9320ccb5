import Mathlib.Data.List.Nodup
import RulePlan.Proofs.WrittenForm
import RulePlan.Yaml.Decode

/-!
# RulePlan.Proofs.RecordReading — written records are read back

A form carries a value if it can be written and its tree is read as that value: texts, numbers and
lists of values do. A mapping carries a record if its entries set the fields of the record one after
the other; fields that are left out must have their default. That is said along the list of all
names (`Sets`), which therefore need to be looked at only once: no name occurs twice among the
entries since none does in the list.

No node is a reference, so the count of nodes that are read through references stays at zero, and no
reading is stopped on account of it.
-/

namespace RulePlan.Yaml

/-! ## Readings without references -/

/-- No reference has been followed. -/
def Tally.Direct (t : Tally) : Prop := t.repeated = 0 ∧ t.following = 0

/-- A reading gives a value and follows no references. -/
def Gives (r : Reads α) (a : α) : Prop :=
  ∀ t : Tally, t.Direct → ∃ t', r t = some (a, t') ∧ t'.Direct

namespace Gives

theorem pure (a : α) : Gives (Pure.pure a) a := fun t ht => ⟨t, rfl, ht⟩

theorem bind {r : Reads α} {a : α} (h : Gives r a) {f : α → Reads β} {b : β} (hf : Gives (f a) b) :
    Gives (r >>= f) b := by
  intro t ht
  obtain ⟨t', hr, ht'⟩ := h t ht
  obtain ⟨t'', hb, ht''⟩ := hf t' ht'
  refine ⟨t'', ?_, ht''⟩
  change (r t).bind (fun p => f p.1 p.2) = _
  rw [hr]
  exact hb

theorem map {r : Reads α} {a : α} (h : Gives r a) (f : α → β) : Gives (f <$> r) (f a) := by
  intro t ht
  obtain ⟨t', hr, ht'⟩ := h t ht
  refine ⟨t', ?_, ht'⟩
  change (r t).bind (fun p => some (f p.1, p.2)) = _
  rw [hr]
  rfl

/-- Nodes that are read directly may be as many as they like. -/
theorem visit : Gives Node.visit () := by
  intro t ht
  refine ⟨t.visit, ?_, ?_⟩
  · have hrepeated : t.visit.repeated = 0 := by simp [Tally.visit, ht.1, ht.2]
    have hexcessive : t.visit.isExcessive = false := by simp [Tally.isExcessive, hrepeated]
    simp [Node.visit, hexcessive]
  · exact ⟨by simp [Tally.visit, ht.1, ht.2], ht.2⟩

end Gives

/-- A node that is no reference. -/
inductive Direct : Node → Prop
  | plain (s : String) : Direct (.plain s)
  | quoted (s : String) : Direct (.quoted s)
  | list (items : List Node) : Direct (.list items)
  | map (entries : List (Node × Node)) : Direct (.map entries)

theorem Direct.gives {n : Node} (hn : Direct n) {read : Node → Reads α} {a : α}
    (h : Gives (read n) a) : Gives (Node.follow read n) a := by
  cases hn <;> exact Gives.visit.bind h

namespace Form

/-- A form that can be written is read back as a value. -/
structure Carries (room : Nat) (f : Form) (read : Node → Reads (Option α)) (a : α) : Prop where
  writable : Writable room f
  gives : Gives (read f.toNode) (some a)

/-! ## Texts -/

theorem direct_text (s : String) : Direct (Form.text s).toNode := by
  rw [toNode]
  split
  · exact .plain s
  · exact .quoted s

/-- What is written without quotes does not stand for anything but its text. -/
theorem scalar?_text (s : String) : (Form.text s).toNode.scalar? = some (.text, s) := by
  rw [toNode]
  split
  · rename_i hplain
    have hreads := (Style.allowsPlain_of_ofText hplain).1
    simp only [Scalar.readsAsText, Bool.and_eq_true, beq_iff_eq] at hreads
    rw [Node.scalar?, hreads.1.1]
  · rfl

theorem gives_text (s : String) : Gives (Node.intoText (Form.text s).toNode) (some s) := by
  refine (direct_text s).gives ?_
  rw [scalar?_text]
  exact Gives.pure _

theorem carries_text {room : Nat} {s : String} (h : Text.IsSingleLine s) :
    Carries room (.text s) Node.intoText s :=
  ⟨.text h, gives_text s⟩

/-! ## Numbers -/

/-- A number of 64 bits that is not negative. -/
def IsSize (n : Int) : Prop := 0 ≤ n ∧ n < 9223372036854775808

theorem digitChar_cases : ∀ d < 10, (Text.Decimal.digitChar d).isDigit = true
    ∧ isNameChar (Text.Decimal.digitChar d) = true
    ∧ digit? (Text.Decimal.digitChar d) = some d := by
  decide

theorem mem_digits {n : Nat} {c : Char} (h : c ∈ Text.Decimal.digits n) :
    ∃ d < 10, c = Text.Decimal.digitChar d := by
  fun_induction Text.Decimal.digits n with
  | case1 n hn => exact ⟨n, hn, List.mem_singleton.1 h⟩
  | case2 n hn ih =>
    obtain h | h := List.mem_append.1 h
    · exact ih h
    · exact ⟨n % 10, Nat.mod_lt n (by decide), List.mem_singleton.1 h⟩

/-- Only zero is written with a zero at its start. -/
theorem exists_digits {n : Nat} (hn : n ≠ 0) :
    ∃ d cs, Text.Decimal.digits n = Text.Decimal.digitChar d :: cs ∧ 0 < d ∧ d < 10 := by
  fun_induction Text.Decimal.digits n with
  | case1 n h => exact ⟨n, [], rfl, Nat.pos_of_ne_zero hn, h⟩
  | case2 n h ih =>
    obtain ⟨d, cs, hcs, hd⟩ := ih (by omega)
    exact ⟨d, _, by rw [hcs, List.cons_append], hd⟩

theorem radixValue?_append (radix acc : Nat) (a b : List Char) :
    Scalar.radixValue? radix acc (a ++ b)
      = (Scalar.radixValue? radix acc a).bind fun n => Scalar.radixValue? radix n b := by
  induction a generalizing acc with
  | nil => rfl
  | cons c a ih =>
    rw [List.cons_append, Scalar.radixValue?, Scalar.radixValue?]
    cases digit? c with
    | none => rfl
    | some d =>
      simp only
      split
      · exact ih _
      · rfl

theorem radixValue?_digits (n : Nat) :
    Scalar.radixValue? 10 0 (Text.Decimal.digits n) = some n := by
  fun_induction Text.Decimal.digits n with
  | case1 n hn => simp [Scalar.radixValue?, (digitChar_cases n hn).2.2, hn]
  | case2 n hn ih =>
    have hmod : n % 10 < 10 := Nat.mod_lt n (by decide)
    rw [radixValue?_append, ih]
    simp only [Option.bind_some, Scalar.radixValue?, (digitChar_cases _ hmod).2.2, hmod, if_true,
      Option.some.injEq]
    omega

theorem unsigned?_digits (n : Nat) : Scalar.unsigned? (Text.Decimal.digits n) = some n := by
  by_cases hn : n = 0
  · rw [hn, Text.Decimal.digits]
    rfl
  · obtain ⟨d, cs, hdigits, hpos, hd⟩ := exists_digits hn
    have hzero : Text.Decimal.digitChar d ≠ '0' := by
      have : ∀ d < 10, 0 < d → Text.Decimal.digitChar d ≠ '0' := by decide
      exact this d hd hpos
    have hread := radixValue?_digits n
    rw [hdigits] at hread ⊢
    unfold Scalar.unsigned?
    split
    · rename_i heq
      exact absurd (List.cons.inj heq).1 hzero
    · rename_i heq
      exact absurd (List.cons.inj heq).1 hzero
    · rw [Scalar.radixRun?, if_neg (by simp)]
      exact hread

/-- No word with a meaning of its own starts with a digit. -/
theorem word?_of_isDigit {s : String} (h : s.toList.head?.any Char.isDigit = true) :
    Scalar.word? s = none := by
  cases hword : Scalar.word? s with
  | none => rfl
  | some v =>
    have hhead : s.toList.head?.any Char.isDigit = false := by
      unfold Scalar.word? at hword
      split at hword <;> first | decide | cases hword
    rw [hhead] at h
    cases h

theorem not_sign_of_isDigit {c : Char} (h : c.isDigit = true) : c ≠ '.' ∧ c ≠ '-' ∧ c ≠ '+' := by
  refine ⟨?_, ?_, ?_⟩ <;> rintro rfl <;> exact absurd h (by decide)

/-- What starts with a digit is a number or a timestamp, or else a text. -/
theorem ofPlain_of_isDigit {s : String} {c : Char} {cs : List Char} (hs : s.toList = c :: cs)
    (h : c.isDigit = true) : Scalar.ofPlain s = (Scalar.number? (c :: cs)).getD .text := by
  have hword : Scalar.word? s = none := word?_of_isDigit (by rw [hs]; simpa using h)
  unfold Scalar.ofPlain
  rw [hword, hs]
  simp only [(not_sign_of_isDigit h).1, h, true_or, if_true, if_false]

/-- What has neither dashes nor marks between its digits is a number if it is one as it stands. -/
theorem number?_of_not_mem {cs : List Char} (hdash : '-' ∉ cs) (hmark : '_' ∉ cs) :
    Scalar.number? cs = ((Scalar.int? cs).map .int).or
      ((Scalar.decimal? cs).or ((Scalar.markedInt? cs).map .int)) := by
  have hplain : cs.filter (· != '_') = cs :=
    List.filter_eq_self.2 fun c hc => bne_iff_ne.2 fun heq => hmark (heq ▸ hc)
  have hdate : Scalar.startsDate cs = false := by
    rw [Scalar.startsDate, Bool.and_eq_false_iff]
    right
    rw [beq_eq_false_iff_ne]
    exact fun hhead => hdash (List.mem_of_mem_drop (List.mem_of_head? hhead))
  simp only [Scalar.number?, hplain, hdate, Bool.false_eq_true, if_false]
  cases Scalar.int? cs with
  | some v => rfl
  | none => cases Scalar.decimal? cs <;> rfl

theorem int?_of_isDigit {c : Char} (h : c.isDigit = true) (cs : List Char) :
    Scalar.int? (c :: cs) = (Scalar.unsigned? (c :: cs)).bind
      fun n => if n < 1 <<< 64 then some (n : Int) else none := by
  obtain ⟨-, hminus, hplus⟩ := not_sign_of_isDigit h
  unfold Scalar.int?
  split
  · rename_i heq
    exact absurd (List.cons.inj heq).1 hminus
  · rename_i heq
    exact absurd (List.cons.inj heq).1 hplus
  · rfl

theorem isDigit_of_mem_digits (n : Nat) : ∀ c ∈ Text.Decimal.digits n, c.isDigit = true := by
  intro c hc
  obtain ⟨d, hd, rfl⟩ := mem_digits hc
  exact (digitChar_cases d hd).1

/-- What is written as a number is read as that number. -/
theorem ofPlain_ofNat {n : Nat} (h : n < 9223372036854775808) :
    Scalar.ofPlain (Text.Decimal.ofNat n) = .int n := by
  have hlist : (Text.Decimal.ofNat n).toList = Text.Decimal.digits n := String.toList_ofList
  have hmissing {c : Char} (hc : c.isDigit = false) : c ∉ Text.Decimal.digits n := by
    intro hmem
    rw [isDigit_of_mem_digits n c hmem] at hc
    cases hc
  have hdash : '-' ∉ Text.Decimal.digits n := hmissing (by decide)
  have hmark : '_' ∉ Text.Decimal.digits n := hmissing (by decide)
  have hsmall : n < 1 <<< 64 := Nat.lt_trans h (by decide)
  have hread := unsigned?_digits n
  obtain ⟨c, cs, hcs⟩ := List.exists_cons_of_ne_nil (Text.Decimal.digits_ne_nil n)
  have hdigit : c.isDigit = true := isDigit_of_mem_digits n c (by simp [hcs])
  rw [hcs] at hdash hmark hread
  rw [ofPlain_of_isDigit (hlist.trans hcs) hdigit, number?_of_not_mem hdash hmark,
    int?_of_isDigit hdigit, hread, Option.bind_some, if_pos hsmall]
  rfl

theorem ofInt_eq {n : Int} (h : 0 ≤ n) : Text.Decimal.ofInt n = Text.Decimal.ofNat n.toNat := by
  rw [Text.Decimal.ofInt, if_neg (by omega)]
  congr 1
  omega

theorem isName_ofNat (n : Nat) : Plain.IsName (Text.Decimal.ofNat n).toList := by
  have hlist : (Text.Decimal.ofNat n).toList = Text.Decimal.digits n := String.toList_ofList
  have hdigit : ∀ c ∈ Text.Decimal.digits n, c.isDigit = true ∧ isNameChar c = true := by
    intro c hc
    obtain ⟨d, hd, rfl⟩ := mem_digits hc
    have hcases := digitChar_cases d hd
    exact ⟨hcases.1, hcases.2.1⟩
  obtain ⟨c, cs, hcs⟩ : ∃ c cs, Text.Decimal.digits n = c :: cs :=
    List.exists_cons_of_ne_nil (Text.Decimal.digits_ne_nil n)
  refine ⟨⟨c, by simp [hlist, hcs], ?_⟩, fun d hd => (hdigit d (by rwa [← hlist])).2⟩
  simp [Char.isAlphanum, (hdigit c (by simp [hcs])).1]

theorem gives_int {n : Int} (h : IsSize n) :
    Gives (Node.intoInt (Form.ofInt n).toNode) (some n) := by
  have hread : Scalar.ofPlain (Text.Decimal.ofInt n) = .int n := by
    rw [ofInt_eq h.1, ofPlain_ofNat (by have := h.2; omega), Int.toNat_of_nonneg h.1]
  have hfits : Scalar.fits n = true := by
    have := h.1
    have := h.2
    simp only [Scalar.fits, Bool.and_eq_true, decide_eq_true_eq]
    omega
  rw [ofInt, toNode, Node.intoInt, Node.intoScalar]
  refine (Direct.plain _).gives ?_
  simp only [Node.scalar?, hread, hfits, if_true]
  exact Gives.pure _

theorem carries_int {room : Nat} {n : Int} (h : IsSize n) :
    Carries room (.ofInt n) Node.intoInt n := by
  refine ⟨?_, gives_int h⟩
  rw [ofInt, ofInt_eq h.1]
  exact .verbatim (unquoted_of_isName (isName_ofNat _))

/-! ## Lists -/

theorem toNodes_map (form : α → Form) (l : List α) :
    toNodes (l.map form) = l.map fun a => (form a).toNode := by
  induction l with
  | nil => rfl
  | cons a l ih => rw [List.map_cons, toNodes, ih, List.map_cons]

/-- A list of forms that carry values is read as the list of the values. -/
theorem gives_list {form : α → Form} {read : Node → Reads (Option α)} {l : List α}
    (h : ∀ a ∈ l, Gives (read (form a).toNode) (some a)) (inline : Bool) :
    Gives (Node.intoList read (Form.list inline (l.map form)).toNode) (some l) := by
  have hitems : Gives (Node.readItems read (l.map fun a => (form a).toNode)) l := by
    induction l with
    | nil => exact Gives.pure _
    | cons a l ih =>
      refine (h a List.mem_cons_self).bind ?_
      exact (ih fun b hb => h b (List.mem_cons_of_mem a hb)).bind (Gives.pure _)
  rw [toNode, toNodes_map]
  exact (Direct.list _).gives (hitems.map some)

theorem carries_list {room : Nat} {form : α → Form} {read : Node → Reads (Option α)} {l : List α}
    (hform : ∀ a ∈ l, ∀ inline items, form a ≠ .list inline items)
    (h : ∀ a ∈ l, Carries room (form a) read a) :
    Carries (room + 1) (.list false (l.map form)) (Node.intoList read) l := by
  refine ⟨.list ?_ ?_, gives_list (fun a ha => (h a ha).gives) false⟩
  · intro i hi
    obtain ⟨a, ha, rfl⟩ := List.mem_map.1 hi
    exact hform a ha
  · intro i hi
    obtain ⟨a, ha, rfl⟩ := List.mem_map.1 hi
    exact (h a ha).writable

theorem carries_texts {room : Nat} {l : List String} (h : ∀ s ∈ l, Text.IsSingleLine s) :
    Carries (room + 1) (.ofTexts l) Node.intoTexts l :=
  carries_list (by simp) fun s hs => carries_text (h s hs)

theorem carries_ints {room : Nat} {l : List Int} (h : ∀ n ∈ l, IsSize n) :
    Carries room (.ofInts l) Node.intoInts l := by
  refine ⟨.inline ?_, gives_list (fun n hn => gives_int (h n hn)) true⟩
  intro i hi
  obtain ⟨n, hn, rfl⟩ := List.mem_map.1 hi
  rw [ofInt, ofInt_eq (h n hn).1]
  exact .verbatim (isName_ofNat _)

/-- Words on one line. -/
theorem carries_words {room : Nat} {l : List String}
    (h : ∀ s ∈ l, Plain.IsName s.toList ∧ Style.ofText s = .plain) :
    Carries room (.list true (l.map .text)) Node.intoTexts l := by
  refine ⟨.inline ?_, gives_list (fun s _ => gives_text s) true⟩
  intro i hi
  obtain ⟨s, hs, rfl⟩ := List.mem_map.1 hi
  exact .text (h s hs).1 (h s hs).2

/-! ## Records -/

/-- Entries set fields of a record, one after the other, and each can be written. Their names are
some of the given ones, in order. -/
inductive Sets (room : Nat) (fields : Node.Fields α) :
    (names : List String) → List (String × Form) → α → α → Prop
  | done (a : α) : Sets room fields [] [] a a
  | omit {key : String} {names : List String} {entries : List (String × Form)} {a b : α}
    (h : Sets room fields names entries a b) : Sets room fields (key :: names) entries a b
  | set {key : String} {names : List String} {entries : List (String × Form)} {a b c : α} {f : Form}
    {field : Node → α → Reads α} (hfield : fields key = some field) (hf : Writable room f)
    (hgives : Gives (field f.toNode a) b) (h : Sets room fields names entries b c) :
    Sets room fields (key :: names) ((key, f) :: entries) a c

namespace Sets

variable {room : Nat} {fields : Node.Fields α} {names : List String}
  {entries : List (String × Form)} {a b : α} {key : String}

theorem sublist (h : Sets room fields names entries a b) :
    (entries.map Prod.fst).Sublist names := by
  induction h with
  | done => exact .slnil
  | «omit» _ ih => exact ih.cons _
  | set _ _ _ _ ih => exact ih.cons_cons _

theorem writable (h : Sets room fields names entries a b) : ∀ e ∈ entries, Writable room e.2 := by
  induction h with
  | done => simp
  | «omit» _ ih => exact ih
  | set _ hf _ _ ih => exact List.forall_mem_cons.2 ⟨hf, ih⟩

/-- A field with the value of a form. -/
theorem field {read : Node → Reads (Option β)} {put : α → β → α} {f : Form} {x : β}
    (hfield : fields key = some (Node.taking read put)) (hf : Carries room f read x)
    (h : Sets room fields names entries (put a x) b) :
    Sets room fields (key :: names) ((key, f) :: entries) a b :=
  .set hfield hf.writable (hf.gives.bind (Gives.pure _)) h

/-- A field that is left out if its value is the one that the record has without it. -/
theorem optional {read : Node → Reads (Option β)} {put : α → β → α} {f : Form} {x : β} {c : Prop}
    [Decidable c] (hfield : fields key = some (Node.taking read put))
    (hput : c → put a x = a) (hf : Carries room f read x)
    (h : Sets room fields names entries (put a x) b) :
    Sets room fields (key :: names) ((if c then [] else [(key, f)]) ++ entries) a b := by
  split
  · rename_i hc
    rw [hput hc] at h
    exact .omit h
  · exact .field hfield hf h

end Sets

/-! ## Mappings -/

instance (cs : List Char) : Decidable (Plain.IsName cs) :=
  decidable_of_iff (cs.head?.any Char.isAlphanum ∧ cs.all isNameChar)
    ⟨fun h => ⟨(Option.any_eq_true _ _).1 h.1, List.all_eq_true.1 h.2⟩,
      fun h => ⟨(Option.any_eq_true _ _).2 h.head, List.all_eq_true.2 h.chars⟩⟩

instance (key : String) : Decidable (IsKey key) :=
  decidable_of_iff (Plain.IsName key.toList ∧ key.toList.length ≤ Scanner.maxKeySize
    ∧ Style.ofText key = .plain) ⟨fun h => ⟨h.1, h.2.1, h.2.2⟩, fun h => ⟨h.name, h.short, h.plain⟩⟩

/-- A key reads as its name. -/
theorem IsKey.gives {key : String} (h : IsKey key) :
    Gives (Node.intoText (.plain key)) (some key) := by
  have htext := gives_text key
  rwa [toNode, if_pos h.plain] at htext

theorem IsKey.not_merge {key : String} (h : IsKey key) : Node.isMerge (.plain key) = false := by
  rw [Node.isMerge, beq_eq_false_iff_ne]
  rintro rfl
  exact absurd h.name (by decide)

theorem toEntries_map (entries : List (String × Form)) :
    toEntries entries = entries.map fun e => (.plain e.1, e.2.toNode) := by
  induction entries with
  | nil => rfl
  | cons e entries ih => rw [toEntries, ih, List.map_cons]

theorem distinctKeys_toEntries {entries : List (String × Form)}
    (h : (entries.map Prod.fst).Nodup) : Node.distinctKeys (toEntries entries) = true := by
  have hkeys : (toEntries entries).map (fun e => Node.keyIdentity e.1)
      = (entries.map Prod.fst).map fun key => (0, key) := by
    rw [toEntries_map, List.map_map, List.map_map]
    rfl
  rw [Node.distinctKeys, hkeys, decide_eq_true_eq]
  exact (List.nodup_map_iff fun _ _ hxy => (Prod.mk.inj hxy).2).2 h

theorem merging_toEntries (fields : Node.Fields α) {entries : List (String × Form)}
    (h : ∀ e ∈ entries, IsKey e.1) : Node.merging fields (toEntries entries) = none := by
  induction entries with
  | nil => rw [toEntries, Node.merging]
  | cons e entries ih =>
    obtain ⟨key, value⟩ := e
    have hkey : IsKey key := h (key, value) List.mem_cons_self
    rw [toEntries, Node.merging, ih fun e he => h e (List.mem_cons_of_mem _ he)]
    simp [hkey.not_merge]

section

variable {room : Nat} {fields : Node.Fields α} {names : List String}
  {entries : List (String × Form)} {a b : α}

/-- The entries of a record are taken in one after the other; no name has been had before. -/
theorem Sets.gives (h : Sets room fields names entries a b) (hnodup : names.Nodup)
    (hkeys : ∀ key ∈ names, IsKey key) (own : List String) (hown : ∀ key ∈ own, key ∉ names) :
    ∃ own', Gives
      ((toEntries entries).foldlM (Node.intoEntry fields) { value := a, taken := none, own })
      { value := b, taken := none, own := own' } := by
  induction h generalizing own with
  | done a => exact ⟨own, Gives.pure _⟩
  | @«omit» key names entries a b h ih =>
    exact ih (List.nodup_cons.1 hnodup).2 (fun k hk => hkeys k (List.mem_cons_of_mem key hk)) own
      fun k hk => fun hmem => hown k hk (List.mem_cons_of_mem key hmem)
  | @set key names entries a b c f field hfield hf hgives h ih =>
    obtain ⟨hnot, hnodup⟩ := List.nodup_cons.1 hnodup
    have hkey : IsKey key := hkeys key List.mem_cons_self
    have hnew : own.contains key = false := by
      rw [List.contains_eq_mem, decide_eq_false_iff_not]
      exact fun hmem => hown key hmem List.mem_cons_self
    have hmoreOwn : ∀ k ∈ key :: own, k ∉ names := by
      intro k hk hmem
      obtain rfl | hk := List.mem_cons.1 hk
      · exact hnot hmem
      · exact hown k hk (List.mem_cons_of_mem key hmem)
    obtain ⟨own', hmore⟩ := ih hnodup (fun k hk => hkeys k (List.mem_cons_of_mem key hk))
      (key :: own) hmoreOwn
    refine ⟨own', ?_⟩
    -- the entry is no merge, its name is one of a field, and the field has not been set
    rw [toEntries, List.foldlM_cons]
    refine Gives.bind ?_ hmore
    rw [Node.intoEntry, if_neg (by simp [hkey.not_merge])]
    refine hkey.gives.bind ?_
    simp only [Option.getD_none, List.contains_nil, Bool.false_eq_true, if_false, Option.map_none,
      hfield, hnew]
    exact hgives.bind (Gives.pure _)

/-- **Records are read back.** A mapping whose entries set the fields of a record carries it. -/
theorem carries_record (names : List String) (h : Sets room fields names entries a b)
    (hne : entries ≠ []) (hnodup : names.Nodup) (hkeys : ∀ key ∈ names, IsKey key) :
    Carries (room + 1) (.map entries) (Node.intoRecord fields a) b := by
  have hkey : ∀ e ∈ entries, IsKey e.1 := fun e he =>
    hkeys _ (h.sublist.subset (List.mem_map_of_mem he))
  refine ⟨.map hne hkey h.writable, ?_⟩
  obtain ⟨own, hentries⟩ := h.gives hnodup hkeys [] (by simp)
  rw [toNode, Node.intoRecord]
  refine (Direct.map _).gives ?_
  simp only
  refine Gives.bind (a := { value := b, taken := none, own }) ?_ (Gives.pure _)
  rw [Node.takeEntries, distinctKeys_toEntries (h.sublist.nodup hnodup),
    merging_toEntries fields hkey]
  refine hentries.bind ?_
  exact Gives.pure _

end

end Form

end RulePlan.Yaml
