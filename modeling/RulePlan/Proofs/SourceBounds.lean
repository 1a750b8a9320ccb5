import Mathlib.Data.String.Basic
import RulePlan.Proofs.LegibleRule

/-!
# RulePlan.Proofs.SourceBounds — the size of a source bounds the numbers of its program

Each rule takes a line with at least one character, and each argument takes a token with at least
one byte. So neither the number of rules nor a line number nor an arity exceeds the number of bytes
of the source. Numbers that are counted in a source therefore fit wherever its length does.
-/

namespace RulePlan

/-! ## Bytes -/

namespace Text

theorem length_bytes (s : String) : (bytes s).length = s.utf8ByteSize := by
  rw [bytes, List.length_map, ByteArray.toList, toList_loop_byteArray, List.drop_zero]
  rfl

theorem length_le_utf8Len (cs : List Char) : cs.length ≤ String.utf8Len cs := by
  induction cs with
  | nil => exact Nat.le_refl 0
  | cons c cs ih =>
    have hpos := c.utf8Size_pos
    rw [List.length_cons, String.utf8Len_cons]
    omega

theorem trimmed_sublist (cs : List Char) : (trimRight (trimLeft cs)).Sublist cs := by
  have hright : (trimRight (trimLeft cs)).Sublist (trimLeft cs) := by
    rw [trimRight, ← List.reverse_sublist, List.reverse_reverse]
    exact List.dropWhile_sublist _
  exact hright.trans (List.dropWhile_sublist _)

theorem utf8ByteSize_trim_le (s : String) : (trim s).utf8ByteSize ≤ s.utf8ByteSize := by
  rw [trim, String.utf8ByteSize_ofList, ← String.utf8Len_toList]
  exact String.utf8Len_le_of_sublist (trimmed_sublist _)

end Text

/-! ## Lines -/

namespace SourceLine

/-- A rule line has the number it is given, and has no more bytes than its piece, which has one. -/
theorem bounds_of_ofPiece? {n : Nat} {piece : List Char} {l : SourceLine}
    (h : ofPiece? n piece = some l) :
    l.number = n ∧ piece ≠ [] ∧ l.text.utf8ByteSize ≤ String.utf8Len piece := by
  unfold ofPiece? at h
  dsimp only at h
  split at h
  case isTrue => cases h
  case isFalse hrule =>
    obtain rfl := Option.some.inj h
    refine ⟨rfl, ?_, ?_⟩
    · rintro rfl
      exact hrule rfl
    · rw [String.utf8ByteSize_ofList]
      exact String.utf8Len_le_of_sublist (Text.trimmed_sublist piece)

theorem numberFrom_nil_cons (n : Nat) (ps : List (List Char)) :
    numberFrom n ([] :: ps) = numberFrom (n + 1) ps := by
  cases hpiece : ofPiece? n [] with
  | none => rw [numberFrom, hpiece, Option.toList_none, List.nil_append]
  | some l => exact absurd rfl (bounds_of_ofPiece? hpiece).2.1

theorem pieces_ne_nil (cs : List Char) : pieces cs ≠ [] := by
  cases cs with
  | nil => exact List.cons_ne_nil _ _
  | cons c cs =>
    rw [pieces]
    split
    · exact List.cons_ne_nil _ _
    · split <;> exact List.cons_ne_nil _ _

theorem utf8Len_le_of_mem_pieces {cs p : List Char} (h : p ∈ pieces cs) :
    String.utf8Len p ≤ String.utf8Len cs := by
  induction cs generalizing p with
  | nil => rw [List.mem_singleton.1 h]
  | cons c cs ih =>
    rw [pieces] at h
    rw [String.utf8Len_cons]
    split at h
    · rcases List.mem_cons.1 h with rfl | h
      · exact Nat.zero_le _
      · exact Nat.le_add_right_of_le (ih h)
    · split at h
      · next hnone => exact absurd hnone (pieces_ne_nil cs)
      · next q qs hpieces =>
        rw [hpieces] at ih
        rcases List.mem_cons.1 h with rfl | h
        · rw [String.utf8Len_cons]
          exact Nat.add_le_add_right (ih List.mem_cons_self) _
        · exact Nat.le_add_right_of_le (ih (List.mem_cons_of_mem q h))

/-- There are no more rule lines than characters, a line number counts characters in front of it,
and a line is a part of the text. -/
theorem bounds_numberFrom (cs : List Char) (n : Nat) :
    (numberFrom n (pieces cs)).length ≤ cs.length
      ∧ ∀ l ∈ numberFrom n (pieces cs),
        l.number < n + cs.length ∧ l.text.utf8ByteSize ≤ String.utf8Len cs := by
  induction cs generalizing n with
  | nil =>
    rw [pieces, numberFrom_nil_cons]
    exact ⟨Nat.le_refl 0, nofun⟩
  | cons c cs ih =>
    rw [List.length_cons, String.utf8Len_cons, pieces]
    split
    case isTrue =>
      obtain ⟨hcount, hlines⟩ := ih (n + 1)
      rw [numberFrom_nil_cons]
      refine ⟨Nat.le_succ_of_le hcount, fun l hl => ?_⟩
      obtain ⟨hnumber, hbytes⟩ := hlines l hl
      omega
    case isFalse =>
      -- the first piece gets one more character, the others are as before
      obtain ⟨hcount, hlines⟩ := ih n
      cases hpieces : pieces cs with
      | nil => exact absurd hpieces (pieces_ne_nil cs)
      | cons p ps =>
        rw [hpieces, numberFrom] at hcount hlines
        rw [List.length_append] at hcount
        dsimp only
        rw [numberFrom, List.length_append]
        have hfirst : (ofPiece? n (c :: p)).toList.length ≤ 1 := by
          cases ofPiece? n (c :: p) with
          | none => exact Nat.zero_le 1
          | some l => exact Nat.le_refl 1
        refine ⟨by omega, fun l hl => ?_⟩
        rcases List.mem_append.1 hl with hl | hl
        · obtain ⟨hnumber, -, hbytes⟩ := bounds_of_ofPiece? (Option.mem_toList.1 hl)
          have hpiece : String.utf8Len p ≤ String.utf8Len cs :=
            utf8Len_le_of_mem_pieces (hpieces ▸ List.mem_cons_self)
          rw [String.utf8Len_cons] at hbytes
          omega
        · obtain ⟨hnumber, hbytes⟩ := hlines l (List.mem_append_right _ hl)
          omega

/-- What is known of the rule lines of a source. -/
theorem bounds_ofSource (source : String) :
    (ofSource source).length ≤ source.utf8ByteSize
      ∧ ∀ l ∈ ofSource source,
        l.number ≤ source.utf8ByteSize ∧ l.text.utf8ByteSize ≤ source.utf8ByteSize := by
  obtain ⟨hcount, hlines⟩ := bounds_numberFrom source.toList 1
  have hle := Text.length_le_utf8Len source.toList
  rw [String.utf8Len_toList] at hle hlines
  refine ⟨hcount.trans hle, fun l hl => ?_⟩
  obtain ⟨hnumber, hbytes⟩ := hlines l hl
  exact ⟨by omega, hbytes⟩

end SourceLine

/-! ## Arguments -/

namespace Token

theorem length_scan_le (line : Int) (col : Nat) (cs : List Char) :
    (scan line col cs).tokens.length ≤ cs.length := by
  fun_induction scan line col cs with
  | case1 => exact Nat.le_refl 0
  | case2 col c cs hblank ih => exact Nat.le_succ_of_le ih
  | case3 => exact Nat.zero_le _
  | case4 col c cs hblank k spelling r hmunch s ih =>
    have hlt := length_lt_of_munch hmunch
    show (scan line (col + spelling.length) r).tokens.length + 1 ≤ _
    omega

/-- A text has no more tokens than bytes, the one that ends it apart. -/
theorem length_tokenize_le {text : String} {line : Int} {tokens : List Token}
    (h : tokenize text line = .ok tokens) : tokens.dropLast.length ≤ text.utf8ByteSize := by
  obtain ⟨-, rfl⟩ := tokenizeBytes_eq_ok_iff.1 h
  rw [List.dropLast_concat, ← Text.length_bytes]
  exact length_scan_le _ _ _

end Token

namespace Grammar

open Rule Token

theorem length_le_joined {pieces : List (List Token)} (h : ∀ p ∈ pieces, p ≠ []) :
    pieces.length ≤ (joined pieces).length := by
  induction pieces with
  | nil => exact Nat.zero_le _
  | cons p pieces ih =>
    obtain ⟨hp, hpieces⟩ := List.forall_mem_cons.1 h
    have hpos := List.length_pos_iff.2 hp
    have hrest := ih hpieces
    cases pieces with
    | nil =>
      rw [joined, List.intercalate_singleton]
      exact hpos
    | cons q qs =>
      unfold joined at hrest ⊢
      rw [List.intercalate_cons_cons]
      simp only [List.length_append, List.length_cons] at hrest ⊢
      omega

theorem sublist_joined_of_mem {pieces : List (List Token)} {p : List Token} (h : p ∈ pieces) :
    p.Sublist (joined pieces) := by
  induction pieces with
  | nil => cases h
  | cons u us ih =>
    cases us with
    | nil =>
      rw [joined, List.intercalate_singleton, List.mem_singleton.1 h]
    | cons v vs =>
      rw [joined, List.intercalate_cons_cons, List.append_assoc]
      rcases List.mem_cons.1 h with rfl | h
      · exact List.sublist_append_left _ _
      · exact (ih h).trans ((List.sublist_append_right _ _).trans (List.sublist_append_right _ _))

theorem length_denoteArgs (n : Nat) (xs : List ArgForm) :
    (denoteArgs n xs).1.length = xs.length := by
  induction xs generalizing n with
  | nil => rfl
  | cons x xs ih => exact congrArg Nat.succ (ih _)

/-- An atom has no more arguments than tokens. -/
theorem arity_le_tokens (x : AtomForm) (n : Nat) : (x.denote n).1.arity ≤ x.tokens.length := by
  have hargs : (x.args.map ArgForm.tokens).length
      ≤ (joined (x.args.map ArgForm.tokens)).length := by
    refine length_le_joined fun p hp => ?_
    obtain ⟨arg, -, rfl⟩ := List.mem_map.1 hp
    exact arg.tokens_ne_nil
  have harity : (x.denote n).1.arity = x.args.length := length_denoteArgs n x.args
  rw [List.length_map] at hargs
  rw [harity, AtomForm.tokens, List.length_cons, List.length_cons, List.length_append]
  omega

/-- The literals of a body are those of its forms. -/
theorem exists_form_of_literal {es : List ElementForm} {n : Nat} {l : Literal}
    (h : .literal l ∈ denoteBody n es) :
    ∃ negated x m, .literal negated x ∈ es ∧ l.atom = (AtomForm.denote m x).1 := by
  induction es generalizing n with
  | nil => exact absurd h List.not_mem_nil
  | cons e es ih =>
    rcases List.mem_cons.1 h with hfirst | hrest
    · cases e with
      | literal negated x =>
        obtain rfl := Element.literal.inj hfirst
        exact ⟨negated, x, n, List.mem_cons_self, rfl⟩
      | assign target value => cases hfirst
      | test condition => cases hfirst
    · obtain ⟨negated, x, m, hx, hatom⟩ := ih hrest
      exact ⟨negated, x, m, List.mem_cons_of_mem e hx, hatom⟩

/-- An atom of a rule has no more arguments than the rule has tokens. -/
theorem arity_le_of_mem_atoms {form : RuleForm} {line : Int} {text : String} {a : Atom}
    (h : a ∈ (form.denote line text).atoms) : a.arity ≤ form.tokens.length := by
  have hbound : ∀ {x : AtomForm} {n : Nat}, x.tokens.Sublist form.tokens →
      (x.denote n).1.arity ≤ form.tokens.length :=
    fun hx => (arity_le_tokens _ _).trans hx.length_le
  rcases List.mem_cons.1 h with rfl | h
  · exact hbound (List.sublist_append_left _ _)
  · obtain ⟨l, hl, rfl⟩ := List.mem_map.1 h
    obtain ⟨negated, x, m, hx, hatom⟩ := exists_form_of_literal
      (Rule.mem_body_of_mem_literals hl)
    rw [hatom]
    have helement : (ElementForm.literal negated x).tokens.Sublist
        (joined (form.body.map ElementForm.tokens)) :=
      sublist_joined_of_mem (List.mem_map.2 ⟨_, hx, rfl⟩)
    have hbody : (joined (form.body.map ElementForm.tokens)).Sublist form.tokens :=
      (List.sublist_append_left _ _).trans
        ((List.sublist_cons_self _ _).trans (List.sublist_append_right _ _))
    exact hbound ((List.sublist_append_right _ _).trans (helement.trans hbody))

end Grammar

/-- The line and the arities of a rule are no larger than a number. -/
structure Rule.Within (bound : Nat) (r : Rule) : Prop where
  line_nonneg : 0 ≤ r.line
  line_le : r.line ≤ bound
  arity_le : ∀ a ∈ r.atoms, a.arity ≤ bound

/-- The numbers of a rule are bounded by the source that its line is in. -/
theorem SourceLine.Reads.within {source : String} {l : SourceLine} {r : Rule} (h : l.Reads r)
    (hl : l ∈ ofSource source) : r.Within source.utf8ByteSize := by
  obtain ⟨hnumber, hbytes⟩ := (bounds_ofSource source).2 l hl
  have hline := Intake.line_of_reads h
  obtain ⟨form, ⟨tokens, htokens, hform, -⟩, rfl⟩ := Rule.read_eq_ok_iff.1 h
  refine ⟨by omega, by omega, fun a ha => ?_⟩
  calc a.arity ≤ form.tokens.length := Grammar.arity_le_of_mem_atoms ha
    _ = tokens.dropLast.length := by rw [← hform, List.length_map]
    _ ≤ (Text.trim l.text).utf8ByteSize := Token.length_tokenize_le htokens
    _ ≤ l.text.utf8ByteSize := Text.utf8ByteSize_trim_le _
    _ ≤ source.utf8ByteSize := hbytes

theorem Program.exists_line_of_mem_rules {file source : String} {mode : Mode} {p : Program}
    (h : ofSource file source mode = .ok p) {r : Rule} (hr : r ∈ p.rules) :
    ∃ l ∈ SourceLine.ofSource source, l.Reads r := by
  rw [rules_of_ofSource h] at hr
  obtain ⟨l, hl, hread⟩ := List.mem_filterMap.1 hr
  refine ⟨l, hl, ?_⟩
  unfold SourceLine.Reads
  cases hresult : (Rule.read l.number l.text).result with
  | error fault =>
    rw [hresult] at hread
    cases hread
  | ok q =>
    rw [hresult] at hread
    exact congrArg Except.ok (Option.some.inj hread)

/-- A program has no more rules than its source has bytes. -/
theorem Program.length_rules_le {file source : String} {mode : Mode} {p : Program}
    (h : ofSource file source mode = .ok p) : p.rules.length ≤ source.utf8ByteSize := by
  rw [rules_of_ofSource h]
  exact (List.length_filterMap_le _ _).trans (SourceLine.bounds_ofSource source).1

end RulePlan
