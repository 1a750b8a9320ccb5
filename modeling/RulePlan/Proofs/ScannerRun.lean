import Mathlib.Logic.Relation
import RulePlan.Proofs.ScalarReading
import RulePlan.Yaml.Token.Scanner

/-!
# RulePlan.Proofs.ScannerRun — a scan is a sequence of readings

The scanner lets tokens go as soon as they cannot become keys, so its queue depends on when it was
asked. What it has read so far does not: a `Status` has all tokens, those that have left the queue
among them, with the place of the next one. A scanner is `At` a status with a list of tokens that
have gone; letting another token go keeps it there, since no token leaves the queue that a colon may
still turn into a key. So whatever is proved of one reading, `Step` by step, holds of the whole scan
(`run_of_leads`).

Only what written documents need is followed: no comments, tags or anchors, and no brackets inside
of brackets.
-/

namespace RulePlan.Yaml.Scanner

/-! ## The place of the next token -/

/-- The place of the next token, and whether a key may start there. -/
def gap (s : Scanner) : Bool × Cursor :=
  s.cursor.skipToToken s.marked s.inBrackets (s.cursor.size + 1) s.keyAllowed

/-- The scanner with what stands before its next token passed, and the blocks ended that end
there. -/
def advance (s : Scanner) : Scanner :=
  closeBlocks { s with cursor := s.gap.2, keyAllowed := s.gap.1 } (· ≤ s.gap.2.column)

/-- What may follow a gap: the end of the text, or a character that is neither a gap nor the start
of a comment. -/
def Begins (content : List Char) : Prop := Solid content ∧ content.head? ≠ some '#'

theorem begins_nil : Begins [] := ⟨nofun, nofun⟩

theorem begins_cons {c : Char} {rest : List Char} (hgap : isGap c = false) (hhash : c ≠ '#') :
    Begins (c :: rest) :=
  ⟨solid_cons hgap, by simpa using hhash⟩

theorem Begins.head_ne_hash {c : Cursor} (h : Begins c.rest) : c.head ≠ '#' := by
  rw [Cursor.head, List.headD_eq_head?_getD]
  cases hrest : c.rest.head? with
  | none => decide
  | some d => exact fun hd => h.2 (by rw [hrest, ← hd]; rfl)

/-- Spaces before the next token are passed. -/
theorem skipToToken_spaces {inBrackets keyAllowed : Bool} {fuel n : Nat} {content : List Char}
    {c : Cursor} (hcontent : Begins content) (h : c.rest = List.replicate n ' ' ++ content) :
    c.skipToToken false inBrackets (fuel + 1) keyAllowed = (keyAllowed, c.skips n) := by
  have hspaces : (c.rest.takeWhile fun d =>
      d == ' ' || ((inBrackets || !keyAllowed) && d == '\t')).length = n := by
    have hstop : content.takeWhile (fun d =>
        d == ' ' || ((inBrackets || !keyAllowed) && d == '\t')) = [] := by
      cases content with
      | nil => rfl
      | cons d content =>
        have hgap := isBlank_eq_false (hcontent.1 d rfl)
        simp only [isBlank, Bool.or_eq_false_iff] at hgap
        exact List.takeWhile_cons_of_neg (by simp [hgap.1, hgap.2])
    rw [h, List.takeWhile_append_of_pos (by simp [List.mem_replicate]), hstop]
    simp
  have hrest : (c.skips n).rest = content := by
    have := (Cursor.skips_word h).1
    rwa [List.length_replicate] at this
  have hbegins : Begins (c.skips n).rest := by rwa [hrest]
  have hhash : ((c.skips n).head == '#') = false := by simpa using hbegins.head_ne_hash
  rw [Cursor.skipToToken]
  simp only [Bool.false_and, Bool.false_eq_true, if_false, Cursor.skipWhile, hspaces, hhash,
    hbegins.1.head.2]

/-- The end of a line is passed with the indentation of the next. -/
theorem skipToToken_newline {inBrackets keyAllowed : Bool} {fuel m : Nat} {content : List Char}
    {c : Cursor} (hcontent : Begins content)
    (h : c.rest = '\n' :: (List.replicate m ' ' ++ content)) :
    c.skipToToken false inBrackets (fuel + 2) keyAllowed
      = (keyAllowed || !inBrackets, c.nextLine m content) := by
  have hnone : (c.rest.takeWhile fun d =>
      d == ' ' || ((inBrackets || !keyAllowed) && d == '\t')) = [] := by
    rw [h]
    exact List.takeWhile_cons_of_neg (by simp)
  rw [Cursor.skipToToken]
  simp only [Bool.false_and, Bool.false_eq_true, if_false, Cursor.skipWhile, hnone,
    List.length_nil, Cursor.skips, Cursor.head_cons h, show ('\n' == '#') = false by decide,
    show isBreak '\n' = true by decide, if_true]
  rw [Cursor.skipBreak, Cursor.takeBreak_newline h, skipToToken_spaces hcontent rfl]
  rfl

/-- How many of the open blocks end before a column. -/
def ending (depth column : Nat) (columns : List Nat) : Nat :=
  if 0 < depth then 0 else (columns.takeWhile (column < ·)).length

theorem closeBlocks_eq (s : Scanner) (column : Nat) :
    s.closeBlocks (· ≤ column)
      = { s with
        columns := s.columns.drop (ending s.depth column s.columns)
        queue := s.queue
          ++ List.replicate (ending s.depth column s.columns) ⟨.blockEnd, s.cursor.line⟩ } := by
  have htest : (fun open_ => !decide (open_ ≤ column))
      = (fun open_ => decide (column < open_)) := by
    funext open_
    rw [← decide_not, decide_eq_decide, Nat.not_le]
  unfold closeBlocks ending inBrackets
  rw [htest]
  by_cases h : 0 < s.depth
  · simp [h]
  · simp [h, List.map_const']

theorem advance_eq (s : Scanner) :
    s.advance = { s with
      cursor := s.gap.2
      keyAllowed := s.gap.1
      columns := s.columns.drop (ending s.depth s.gap.2.column s.columns)
      queue := s.queue ++ List.replicate (ending s.depth s.gap.2.column s.columns)
        ⟨.blockEnd, s.gap.2.line⟩ } :=
  closeBlocks_eq _ _

/-- A reading is the reading of the token at the next place, in a text that can be read whole. -/
theorem fetch_eq {s t : Scanner} (hs : s.unreadable = 0) (h : s.advance.fetchToken = .ok t)
    (ht : t.unreadable = 0) : s.fetch = .ok t := by
  have hs' : s.advance.unreadable = 0 := by
    rw [advance_eq]
    exact hs
  have hnever : ∀ {u : Scanner}, u.unreadable = 0 → ∀ {near : Bool},
      ¬(decide (0 < u.unreadable) && near) = true := by
    intro u hu near
    simp [hu]
  unfold fetch
  change (if (decide (0 < s.advance.unreadable) && _) = true then _ else _) = _
  rw [if_neg (hnever hs')]
  split
  case h_1 fault hfault => exact nomatch h.symm.trans hfault
  case h_2 u hu =>
    obtain rfl : t = u := Except.ok.inj (h.symm.trans hu)
    exact if_neg (hnever ht)

/-! ## What has been read -/

/-- Whether the last token may be a key: it is none, it may be one but need not, or the colon after
it comes next; then its number and column are known. -/
inductive KeyState where
  | none
  | optional
  | awaited (number column : Nat)

/-- No colon is awaited. -/
def KeyState.Free : KeyState → Prop
  | .none => True
  | .optional => True
  | .awaited _ _ => False

/-- What a scanner has read: the tokens, the text and column of the next one, the open blocks, the
number of open brackets, whether a key may start here, and whether the last token may be one. -/
structure Status where
  kinds : List Token.Kind
  rest : List Char
  column : Nat
  columns : List Nat
  depth : Nat
  keyAllowed : Bool
  key : KeyState

/-- The possible keys of a scanner are as a key state says. Outside of the innermost level there are
none. -/
structure Tracks (s : Scanner) (key : KeyState) (k : PossibleKey) (outer : List PossibleKey) :
    Prop where
  keys : s.keys = k :: outer
  depth : outer.length = s.depth
  outer : ∀ o ∈ outer, o.possible = false
  owners : ∀ e ∈ s.owners, k.possible = true ∧ e = (k.number, s.depth)
  state : match key with
    | .none => k.possible = false
    | .optional => k.possible = true → k.required = false
    | .awaited number column =>
      k.possible = true ∧ k.number = number ∧ k.column = column ∧ s.released ≤ number
        ∧ (number, s.depth) ∈ s.owners ∧ k.line = s.cursor.line
        ∧ s.cursor.index ≤ k.index + maxKeySize

/-- A scanner stands right at a status; `out` are the tokens that have left its queue. -/
structure Stands (out : List Token) (st : Status) (s : Scanner) : Prop where
  readable : s.unreadable = 0
  unmarked : s.marked = false
  released : s.released = out.length
  kinds : (out ++ s.queue).map Token.kind = st.kinds
  rest : s.cursor.rest = st.rest
  size : st.rest.length ≤ s.cursor.size
  column : s.cursor.column = st.column
  columns : s.columns = st.columns
  depth : s.depth = st.depth
  keyAllowed : s.keyAllowed = st.keyAllowed
  tracks : ∃ k outer, s.Tracks st.key k outer

/-- A scanner will stand at a status once it has passed what is before the next token; right before
an awaited colon there is nothing to pass. -/
structure At (out : List Token) (st : Status) (s : Scanner) : Prop where
  stands : s.advance.Stands out st
  here : ∀ number column, st.key = .awaited number column → s.advance.cursor = s.cursor

/-! ## Letting tokens go -/

theorem Tracks.owners_eq_nil {s : Scanner} {key : KeyState} {k : PossibleKey}
    {outer : List PossibleKey} (h : s.Tracks key k outer) (hk : k.possible = false) :
    s.owners = [] := by
  rw [List.eq_nil_iff_forall_not_mem]
  intro e he
  exact absurd (h.owners e he).1 (by simp [hk])

/-- The first token is the innermost possible key or none at all. -/
theorem Tracks.lookup_cases {s : Scanner} {key : KeyState} {k : PossibleKey}
    {outer : List PossibleKey} (h : s.Tracks key k outer) :
    s.owners.lookup s.released = none
      ∨ s.owners.lookup s.released = some s.depth ∧ k.possible = true ∧ k.number = s.released := by
  cases hlookup : s.owners.lookup s.released with
  | none => exact .inl rfl
  | some level =>
    obtain ⟨front, back, howners, -⟩ := List.lookup_eq_some_iff.1 hlookup
    obtain ⟨hpossible, heq⟩ := h.owners (s.released, level) (by simp [howners])
    obtain ⟨hnumber, hlevel⟩ := Prod.mk.inj heq
    exact .inr ⟨by rw [hlevel], hpossible, hnumber.symm⟩

theorem Tracks.lookup_awaited {s : Scanner} {number column : Nat} {k : PossibleKey}
    {outer : List PossibleKey} (h : s.Tracks (.awaited number column) k outer) :
    s.owners.lookup number = some s.depth := by
  obtain ⟨-, hnumber, -, -, hmem, -⟩ := h.state
  cases howners : s.owners with
  | nil => simp [howners] at hmem
  | cons e owners =>
    have he := (h.owners e (by simp [howners])).2
    rw [he, hnumber, List.lookup_cons_self]

/-- A scanner with another innermost key and another front of the queue stands at the same status,
if the keys still are as the status says. -/
theorem At.release {out : List Token} {st : Status} {s : Scanner} (h : At out st s) {t : Token}
    {queue : List Token} (hqueue : s.queue = t :: queue) {keys : List PossibleKey}
    {owners : List (Nat × Nat)}
    (htracks : ∃ k outer, Tracks { s.advance with
      queue := s.advance.queue.tail, released := s.released + 1, keys, owners } st.key k outer) :
    At (out ++ [t]) st { s with queue, released := s.released + 1, keys, owners } := by
  have hadvance : ({ s with queue, released := s.released + 1, keys, owners } : Scanner).advance
      = { s.advance with
        queue := s.advance.queue.tail, released := s.released + 1, keys, owners } := by
    rw [advance_eq, advance_eq, hqueue]
    rfl
  have hs := h.stands
  have hreleased : s.released = out.length := by
    have := hs.released
    rwa [advance_eq] at this
  constructor
  · rw [hadvance]
    refine ⟨hs.readable, hs.unmarked, by simp [hreleased], ?_, hs.rest, hs.size, hs.column,
      hs.columns, hs.depth, hs.keyAllowed, htracks⟩
    have hkinds := hs.kinds
    rw [advance_eq, hqueue] at hkinds
    rw [advance_eq, hqueue]
    simpa using hkinds
  · intro number column hkey
    rw [hadvance]
    exact h.here number column hkey

theorem checkKey_of_live {c : Cursor} {k : PossibleKey} (hline : k.line = c.line)
    (hindex : c.index ≤ k.index + maxKeySize) : checkKey c k = .ok k := by
  rw [checkKey, if_neg]
  simp only [Bool.and_eq_true, Bool.or_eq_true, decide_eq_true_eq]
  omega

theorem checkKey_of_optional {c : Cursor} {k : PossibleKey}
    (h : k.possible = true → k.required = false) :
    checkKey c k = .ok k ∨ checkKey c k = .ok { k with possible := false } := by
  unfold checkKey
  split
  · rename_i hstale
    rw [Bool.and_eq_true] at hstale
    rw [if_neg (by simp [h hstale.1])]
    exact .inr rfl
  · exact .inl rfl

/-- Without the tokens up to the first one, the owners that are left are as before. -/
theorem Tracks.release {s : Scanner} {key : KeyState} {k : PossibleKey} {outer : List PossibleKey}
    (h : s.Tracks key k outer) (hnumber : ∀ number column, key = .awaited number column →
      number ≠ s.released) (queue : List Token) :
    Tracks { s with
      queue
      released := s.released + 1
      owners := s.owners.filter fun (number, _) => decide (s.released < number) } key k outer := by
  refine ⟨h.keys, h.depth, h.outer, fun e he => h.owners e (List.mem_filter.1 he).1, ?_⟩
  have hstate := h.state
  cases key with
  | none => exact hstate
  | optional => exact hstate
  | awaited number column =>
    obtain ⟨hpossible, hk, hcolumn, hreleased, hmem, hline, hindex⟩ := hstate
    have hlt : s.released < number := by
      have := hnumber number column rfl
      omega
    exact ⟨hpossible, hk, hcolumn, hlt, List.mem_filter.2 ⟨hmem, by simpa using hlt⟩, hline,
      hindex⟩

/-- A key that need not be one, found to be none when its token goes. -/
theorem Tracks.release_optional {s : Scanner} {k : PossibleKey} {outer : List PossibleKey}
    (h : s.Tracks .optional k outer) (hnumber : k.number = s.released) (queue : List Token) :
    Tracks { s with
      queue
      released := s.released + 1
      keys := { k with possible := false } :: outer
      owners := s.owners.filter fun (number, _) => decide (s.released < number) }
      .optional { k with possible := false } outer := by
  refine ⟨rfl, h.depth, h.outer, ?_, nofun⟩
  intro e he
  obtain ⟨hmem, hlt⟩ := List.mem_filter.1 he
  rw [(h.owners e hmem).2, hnumber] at hlt
  simp at hlt

/-- A first token that owns no key goes, and nothing else changes. -/
theorem At.release_unowned {out : List Token} {st : Status} {s : Scanner} (h : At out st s)
    {k : PossibleKey} {outer : List PossibleKey} (ht : s.advance.Tracks st.key k outer)
    (hnone : s.advance.owners.lookup s.advance.released = none) {t : Token} {queue : List Token}
    (hqueue : s.queue = t :: queue) : At (out ++ [t]) st (s.release queue) := by
  refine h.release hqueue ⟨k, outer, ?_⟩
  have hother : ∀ number column, st.key = .awaited number column →
      number ≠ s.advance.released := by
    rintro number column hkey rfl
    rw [hkey] at ht
    rw [ht.lookup_awaited] at hnone
    cases hnone
  have hreleased := ht.release hother s.advance.queue.tail
  rw [advance_eq] at hreleased ⊢
  exact hreleased

/-- A first token whose key need not be one goes, and its key is none from then on. -/
theorem At.release_stale {out : List Token} {st : Status} {s : Scanner} (h : At out st s)
    {k : PossibleKey} {outer : List PossibleKey} (ht : s.advance.Tracks st.key k outer)
    (hkey : st.key = .optional) (hnumber : k.number = s.advance.released) {t : Token}
    {queue : List Token} (hqueue : s.queue = t :: queue) :
    At (out ++ [t]) st
      (Scanner.release { s with keys := { k with possible := false } :: outer } queue) := by
  refine h.release hqueue ⟨{ k with possible := false }, outer, ?_⟩
  rw [hkey] at ht
  have hreleased := ht.release_optional hnumber s.advance.queue.tail
  rw [hkey]
  rw [advance_eq] at hreleased ⊢
  exact hreleased

/-- The first token of the queue waits as a possible key, or it goes and nothing else changes. -/
theorem At.headMayBeKey {out : List Token} {st : Status} {s : Scanner} (h : At out st s) :
    (s.headMayBeKey = .ok (true, s) ∧ st.key ≠ .none)
      ∨ ∃ s', s.headMayBeKey = .ok (false, s')
        ∧ ∀ t queue, s.queue = t :: queue → At (out ++ [t]) st (s'.release queue) := by
  obtain ⟨k, outer, ht⟩ := h.stands.tracks
  have hkeys : s.keys = k :: outer := by
    have := ht.keys
    rwa [advance_eq] at this
  have hsame : { s with keys := k :: outer } = s := by
    rw [← hkeys]
  obtain hnone | ⟨hlookup, hpossible, hnumber⟩ := ht.lookup_cases
  · -- the first token owns no key
    right
    refine ⟨s, ?_, fun t queue hqueue => h.release_unowned ht hnone hqueue⟩
    rw [advance_eq] at hnone
    rw [Scanner.headMayBeKey, hnone]
  · -- it is the innermost possible key
    have hhead : s.headMayBeKey = (checkKey s.cursor k).map fun k =>
        (k.possible, { s with keys := k :: outer }) := by
      rw [advance_eq] at hlookup
      simp only [Scanner.headMayBeKey, hlookup, Nat.sub_self, hkeys, List.drop_zero, List.take_zero,
        List.nil_append]
    cases hkey : st.key with
    | none =>
      rw [hkey] at ht
      exact absurd ht.state (by simp [hpossible])
    | optional =>
      obtain hcheck | hcheck := checkKey_of_optional (c := s.cursor) (hkey ▸ ht).state
      · left
        rw [hhead, hcheck]
        simp [Except.map, hpossible, hsame]
      · right
        rw [hhead, hcheck]
        exact ⟨_, rfl, fun t queue hqueue => h.release_stale ht hkey hnumber hqueue⟩
    | awaited number column =>
      left
      have hplace := h.here number column hkey
      rw [hkey] at ht
      obtain ⟨-, -, -, -, -, hline, hindex⟩ := ht.state
      rw [hplace] at hline hindex
      rw [hhead, checkKey_of_live hline hindex]
      simp [Except.map, hpossible, hsame]

/-! ## Steps -/

/-- One reading leads from a status to the next, whatever has left the queue. Besides, the text
gets shorter, no token is lost, and there are at most four more tokens and open blocks for every
character that is read. -/
structure Step (st next : Status) : Prop where
  unended : .streamEnd ∉ st.kinds
  shrinks : next.rest.length < st.rest.length
  grows : st.kinds.length ≤ next.kinds.length
  bounded : next.kinds.length + next.columns.length + 4 * next.rest.length
    ≤ st.kinds.length + st.columns.length + 4 * st.rest.length
  fetch : ∀ {out : List Token} {s : Scanner}, At out st s →
    ∃ s', s.fetch = .ok s' ∧ At out next s'

/-- Readings one after the other. -/
def Leads : Status → Status → Prop := Relation.ReflTransGen Step

theorem Leads.length_le {st next : Status} (h : Leads st next) :
    st.kinds.length ≤ next.kinds.length := by
  induction h with
  | refl => exact Nat.le_refl _
  | tail _ hstep ih => exact Nat.le_trans ih hstep.grows

theorem Leads.bounded {st next : Status} (h : Leads st next) :
    next.kinds.length + next.columns.length + 4 * next.rest.length
      ≤ st.kinds.length + st.columns.length + 4 * st.rest.length := by
  induction h with
  | refl => exact Nat.le_refl _
  | tail _ hstep ih => exact Nat.le_trans hstep.bounded ih

/-! ## Giving up a possible key -/

theorem Tracks.removeKey {s : Scanner} {key : KeyState} {k : PossibleKey}
    {outer : List PossibleKey} (h : s.Tracks key k outer)
    (hkey : key.Free) :
    ∃ k', k'.possible = false
      ∧ s.removeKey = .ok { s with keys := k' :: outer, owners := [] } := by
  have hrequired : k.possible = true → k.required = false := by
    have hstate := h.state
    cases key with
    | none => exact fun hp => absurd hstate (by simp [hp])
    | optional => exact hstate
    | awaited number column => exact hkey.elim
  rw [Scanner.removeKey, h.keys]
  by_cases hp : k.possible = true
  · refine ⟨{ k with possible := false }, rfl, ?_⟩
    have howners : s.owners.filter (·.1 != k.number) = [] := by
      rw [List.filter_eq_nil_iff]
      intro e he
      simp [(h.owners e he).2]
    simp [hp, hrequired hp, howners]
  · rw [Bool.not_eq_true] at hp
    refine ⟨k, hp, ?_⟩
    simp [hp, ← h.keys, ← h.owners_eq_nil hp]

/-- Whether the keys are as a state says depends on the keys alone, unless a colon is awaited. -/
theorem Tracks.of_eq {s s' : Scanner} {key : KeyState} {k : PossibleKey} {outer : List PossibleKey}
    (h : s.Tracks key k outer) (hkey : key.Free)
    (hkeys : s'.keys = s.keys) (hdepth : s'.depth = s.depth) (howners : s'.owners = s.owners) :
    s'.Tracks key k outer := by
  refine ⟨hkeys.trans h.keys, by rw [hdepth, h.depth], h.outer,
    by rw [howners, hdepth]; exact h.owners, ?_⟩
  have hstate := h.state
  cases key with
  | none => exact hstate
  | optional => exact hstate
  | awaited number column => exact hkey.elim

theorem tracks_none {s : Scanner} {k : PossibleKey} {outer : List PossibleKey}
    (hkeys : s.keys = k :: outer) (howners : s.owners = []) (hk : k.possible = false)
    (hdepth : outer.length = s.depth) (houter : ∀ o ∈ outer, o.possible = false) :
    s.Tracks .none k outer :=
  ⟨hkeys, hdepth, houter, by simp [howners], hk⟩

/-! ## From one token to the next -/

/-- The status at the content after a gap that ends at a column. -/
def Status.before (st : Status) (column : Nat) (keyAllowed : Bool) (content : List Char) : Status :=
  { st with
    kinds := st.kinds ++ List.replicate (ending st.depth column st.columns) .blockEnd
    rest := content
    column
    columns := st.columns.drop (ending st.depth column st.columns)
    keyAllowed }

theorem Tracks.advance {s : Scanner} {key : KeyState} {k : PossibleKey} {outer : List PossibleKey}
    (h : s.Tracks key k outer)
    (hhere : ∀ number column, key = .awaited number column → s.gap.2 = s.cursor) :
    s.advance.Tracks key k outer := by
  rw [advance_eq]
  refine ⟨h.keys, h.depth, h.outer, h.owners, ?_⟩
  have hstate := h.state
  cases key with
  | none => exact hstate
  | optional => exact hstate
  | awaited number column =>
    rw [hhere number column rfl]
    exact hstate

/-- A scanner that stands before a gap is at the content after it. -/
theorem Stands.at {out : List Token} {st : Status} {s : Scanner} (h : Stands out st s)
    {keyAllowed : Bool} {c : Cursor} (hgap : s.gap = (keyAllowed, c))
    (hsize : c.size = s.cursor.size) (hlength : c.rest.length ≤ st.rest.length)
    (hhere : ∀ number column, st.key = .awaited number column → c = s.cursor) :
    At out (st.before c.column keyAllowed c.rest) s := by
  have hcursor : s.gap.2 = c := by rw [hgap]
  have hkeyAllowed : s.gap.1 = keyAllowed := by rw [hgap]
  obtain ⟨k, outer, ht⟩ := h.tracks
  constructor
  · refine ⟨?_, ?_, ?_, ?_, ?_, ?_, ?_, ?_, ?_, ?_, ⟨k, outer, ht.advance ?_⟩⟩
    · rw [advance_eq]; exact h.readable
    · rw [advance_eq]; exact h.unmarked
    · rw [advance_eq]; exact h.released
    · rw [advance_eq, hcursor, ← List.append_assoc, List.map_append, h.kinds, h.depth, h.columns,
        List.map_replicate]
      rfl
    · rw [advance_eq, hcursor]; rfl
    · rw [advance_eq, hcursor, hsize]
      exact Nat.le_trans hlength h.size
    · rw [advance_eq, hcursor]; rfl
    · rw [advance_eq, hcursor, h.depth, h.columns]; rfl
    · rw [advance_eq]; exact h.depth
    · rw [advance_eq]; exact hkeyAllowed
    · intro number column hkey
      rw [hcursor, hhere number column hkey]
  · intro number column hkey
    rw [advance_eq]
    exact hcursor.trans (hhere number column hkey)

/-- Spaces lead to the content after them. -/
theorem Stands.at_spaces {out : List Token} {st : Status} {s : Scanner} (h : Stands out st s)
    {n : Nat} {content : List Char} (hcontent : Begins content)
    (hrest : st.rest = List.replicate n ' ' ++ content)
    (hkey : st.key.Free ∨ n = 0) :
    At out (st.before (st.column + n) st.keyAllowed content) s := by
  have hcursor : s.cursor.rest = List.replicate n ' ' ++ content := h.rest.trans hrest
  have hgap : s.gap = (st.keyAllowed, s.cursor.skips n) := by
    rw [gap, h.unmarked, skipToToken_spaces hcontent hcursor, h.keyAllowed]
  obtain ⟨hafter, hcolumn, -⟩ := Cursor.skips_word hcursor
  rw [List.length_replicate] at hafter hcolumn
  rw [← hafter, ← h.column, ← hcolumn]
  refine h.at hgap (Cursor.skips_size _ _) ?_ ?_
  · rw [hafter, hrest, List.length_append]
    omega
  · intro number column hawaited
    rw [hkey.resolve_left (by simp [hawaited, KeyState.Free])]
    rfl

/-- The end of a line leads to the content of the next one, where a key may start. -/
theorem Stands.at_newline {out : List Token} {st : Status} {s : Scanner} (h : Stands out st s)
    {m : Nat} {content : List Char} (hcontent : Begins content) (hdepth : st.depth = 0)
    (hrest : st.rest = '\n' :: (List.replicate m ' ' ++ content))
    (hkey : st.key.Free) :
    At out (st.before m true content) s := by
  have hcursor : s.cursor.rest = '\n' :: (List.replicate m ' ' ++ content) := h.rest.trans hrest
  have hbrackets : s.inBrackets = false := by simp [inBrackets, h.depth, hdepth]
  obtain ⟨size, hsize⟩ : ∃ size, s.cursor.size = size + 1 := by
    have := h.size
    rw [hrest, List.length_cons] at this
    exact ⟨s.cursor.size - 1, by omega⟩
  have hgap : s.gap = (true, s.cursor.nextLine m content) := by
    rw [gap, h.unmarked, hsize, skipToToken_newline hcontent hcursor, hbrackets]
    simp
  have hat := h.at hgap (Cursor.nextLine_size _ _ _) (by
    rw [Cursor.nextLine_rest, hrest]
    simp only [List.length_cons, List.length_append]
    omega) (fun number column hawaited => by simp [hawaited, KeyState.Free] at hkey)
  rwa [Cursor.nextLine_rest, Cursor.nextLine_column] at hat

theorem ending_eq_zero {depth column : Nat} {columns : List Nat}
    (h : 0 < depth ∨ ∀ k ∈ columns.head?, k ≤ column) : ending depth column columns = 0 := by
  unfold ending
  split
  · rfl
  · rename_i hdepth
    cases columns with
    | nil => rfl
    | cons k columns =>
      have hk := h.resolve_left hdepth k rfl
      rw [List.takeWhile_cons_of_neg (by simpa using hk)]
      rfl

/-- Where no block ends, only the place changes. -/
theorem Status.before_eq {st : Status} {column : Nat} {keyAllowed : Bool} {content : List Char}
    (h : 0 < st.depth ∨ ∀ k ∈ st.columns.head?, k ≤ column) :
    st.before column keyAllowed content = { st with rest := content, column, keyAllowed } := by
  rw [before, ending_eq_zero h]
  simp

/-! ## The end of the text -/

/-- The status after a number of readings at the end of a text. -/
def ended (kinds : List Token.Kind) (n : Nat) : Status :=
  { kinds := kinds ++ List.replicate n .streamEnd
    rest := [], column := 0, columns := [], depth := 0, keyAllowed := false, key := .none }

theorem At.fetch {out : List Token} {st next : Status} {s : Scanner} (h : At out st s)
    (hnext : ∃ t, s.advance.fetchToken = .ok t ∧ At out next t) :
    ∃ t, s.fetch = .ok t ∧ At out next t := by
  obtain ⟨t, hfetch, ht⟩ := hnext
  have hreadable : s.unreadable = 0 := by
    have := h.stands.readable
    rwa [advance_eq] at this
  have hnextReadable : t.unreadable = 0 := by
    have := ht.stands.readable
    rwa [advance_eq] at this
  exact ⟨t, fetch_eq hreadable hfetch hnextReadable, ht⟩

theorem closeBlocks_all {s : Scanner} (h : s.depth = 0) :
    s.closeBlocks (fun _ => false) = { s with
      columns := []
      queue := s.queue ++ List.replicate s.columns.length ⟨.blockEnd, s.cursor.line⟩ } := by
  have hall : s.columns.takeWhile (fun _ => true) = s.columns :=
    List.takeWhile_eq_self_iff.2 fun _ _ => rfl
  simp [closeBlocks, inBrackets, h, hall, List.map_const']

/-- At the end of a text the open blocks end, and then the text. -/
theorem Stands.streamEnd {out : List Token} {st : Status} {s : Scanner} (h : Stands out st s)
    (hrest : st.rest = []) (hdepth : st.depth = 0)
    (hkey : st.key.Free) :
    ∃ t, s.streamEnd = .ok t
      ∧ Stands out (ended (st.kinds ++ List.replicate st.columns.length .blockEnd) 1) t := by
  obtain ⟨k, outer, ht⟩ := h.tracks
  obtain ⟨c, hc, hcolumn, hcrest⟩ : ∃ c : Cursor, c = (if s.cursor.column = 0 then s.cursor else
      { s.cursor with column := 0, line := s.cursor.line + 1 }) ∧ c.column = 0
      ∧ c.rest = s.cursor.rest := by
    refine ⟨_, rfl, ?_, ?_⟩
    · split
      · assumption
      · rfl
    · split <;> rfl
  obtain ⟨k', hk', hremove⟩ := Tracks.removeKey (s := { s with
    cursor := c
    columns := []
    queue := s.queue ++ List.replicate s.columns.length ⟨.blockEnd, c.line⟩ })
    (ht.of_eq hkey rfl rfl rfl) hkey
  refine ⟨{ s with
    cursor := c
    columns := []
    keys := k' :: outer
    owners := []
    queue := s.queue ++ List.replicate s.columns.length ⟨.blockEnd, c.line⟩
      ++ [⟨.streamEnd, c.line⟩]
    keyAllowed := false }, ?_, ?_⟩
  · rw [Scanner.streamEnd, ← hc,
      closeBlocks_all (s := { s with cursor := c }) (h.depth.trans hdepth), hremove]
    rfl
  · refine ⟨h.readable, h.unmarked, h.released, ?_, hcrest.trans (h.rest.trans hrest),
      Nat.zero_le _, hcolumn, rfl, h.depth.trans hdepth, rfl,
      ⟨k', outer, tracks_none rfl rfl hk' ht.depth ht.outer⟩⟩
    simp only [← List.append_assoc, List.map_append, List.map_replicate, List.map_cons,
      List.map_nil, ended, h.columns]
    rw [← List.map_append, h.kinds]
    rfl

/-- At the end of a text its end is read, again and again. -/
theorem At.fetch_end {out : List Token} {st : Status} {s : Scanner} (h : At out st s)
    (hrest : st.rest = []) (hdepth : st.depth = 0)
    (hkey : st.key.Free) :
    ∃ t, s.fetch = .ok t
      ∧ At out (ended (st.kinds ++ List.replicate st.columns.length .blockEnd) 1) t := by
  apply h.fetch
  obtain ⟨t, hend, ht⟩ := h.stands.streamEnd hrest hdepth hkey
  refine ⟨t, ?_, ?_⟩
  · rw [fetchToken, if_pos, hend]
    rw [Cursor.isEnd, h.stands.rest, hrest]
    rfl
  · have hat := ht.at_spaces (n := 0) begins_nil rfl (.inr rfl)
    rwa [Status.before_eq (.inr (by simp [ended]))] at hat

/-! ## Whole scans -/

/-- The tokens in the queue are those that follow the ones that have gone; blocks that end before
the next token have theirs still to come. -/
theorem At.kinds_queue {out : List Token} {st : Status} {s : Scanner} (h : At out st s) :
    ∃ n, st.kinds = out.map Token.kind ++ s.queue.map Token.kind ++ List.replicate n .blockEnd := by
  have hkinds := h.stands.kinds
  rw [advance_eq] at hkinds
  refine ⟨ending s.depth s.gap.2.column s.columns, ?_⟩
  rw [← hkinds, List.map_append, List.map_append, List.map_replicate, List.append_assoc]

/-- The queue after the end of a text was read has all that has not gone. -/
theorem At.kinds_ended {out : List Token} {kinds : List Token.Kind} {n : Nat} {s : Scanner}
    (h : At out (ended kinds (n + 1)) s) :
    out.map Token.kind ++ s.queue.map Token.kind = kinds ++ List.replicate (n + 1) .streamEnd := by
  obtain ⟨m, hm⟩ := h.kinds_queue
  cases m with
  | zero => simpa [ended] using hm.symm
  | succ m =>
    -- the last token is no end of a block
    have hlast := congrArg List.getLast? hm
    rw [ended, List.replicate_succ', ← List.append_assoc, List.getLast?_concat,
      List.replicate_succ', ← List.append_assoc, List.getLast?_concat] at hlast
    cases hlast

theorem run_succ (fuel : Nat) (s : Scanner) :
    run (fuel + 1) s =
      match s.queue with
      | t :: a :: b :: queue =>
        match s.headMayBeKey with
        | .error fault => ([], some fault)
        | .ok (true, s) =>
          match s.fetch with
          | .error fault => ([], some fault)
          | .ok s => run fuel s
        | .ok (false, s) =>
          if t.kind == .streamEnd then ([t], none)
          else
            (t :: (run fuel (s.release (a :: b :: queue))).1,
              (run fuel (s.release (a :: b :: queue))).2)
      | _ =>
        match s.fetch with
        | .error fault => ([], some fault)
        | .ok s => run fuel s := by
  rfl

theorem run_fetch_short {s t : Scanner} {fuel : Nat} (hshort : s.queue.length < 3)
    (h : s.fetch = .ok t) : run (fuel + 1) s = run fuel t := by
  rw [run_succ, h]
  split
  · rename_i hqueue
    rw [hqueue] at hshort
    simp only [List.length_cons] at hshort
    omega
  · rfl

theorem run_fetch_key {s t : Scanner} {fuel : Nat} (hhead : s.headMayBeKey = .ok (true, s))
    (h : s.fetch = .ok t) : run (fuel + 1) s = run fuel t := by
  rw [run_succ, hhead]
  simp only [h]
  split <;> rfl

theorem run_release {s s' : Scanner} {fuel : Nat} {t : Token} {queue : List Token}
    (hqueue : s.queue = t :: queue) (hlong : 2 ≤ queue.length)
    (hhead : s.headMayBeKey = .ok (false, s')) :
    run (fuel + 1) s = if t.kind = .streamEnd then ([t], none)
      else (t :: (run fuel (s'.release queue)).1, (run fuel (s'.release queue)).2) := by
  obtain ⟨a, b, rest, rfl⟩ : ∃ a b rest, queue = a :: b :: rest := by
    match queue, hlong with
    | a :: b :: rest, _ => exact ⟨a, b, rest, rfl⟩
  rw [run_succ]
  simp only [hqueue, hhead, beq_iff_eq]

/-- At the end of the text what is left of the queue goes, up to the first token for the end. -/
theorem run_ended {kinds : List Token.Kind} (hkinds : .streamEnd ∉ kinds) {fuel n : Nat}
    (hn : n < 3) {out : List Token} {s : Scanner} (h : At out (ended kinds (n + 1)) s)
    (hout : out.length ≤ kinds.length) (hfuel : (2 - n) + (kinds.length - out.length) < fuel) :
    (run fuel s).2 = none
      ∧ (out ++ (run fuel s).1).map Token.kind = kinds ++ [.streamEnd] := by
  induction fuel generalizing n out s with
  | zero => omega
  | succ fuel ih =>
    have hqueue := h.kinds_ended
    have hlength : out.length + s.queue.length = kinds.length + (n + 1) := by
      simpa using congrArg List.length hqueue
    by_cases hshort : s.queue.length < 3
    · -- too few tokens wait: the end is read once more
      obtain ⟨t, hfetch, ht⟩ := h.fetch_end rfl rfl trivial
      have hnext : At out (ended kinds (n + 1 + 1)) t := by
        convert ht using 1
        simp [ended, List.replicate_succ' (n := n + 1)]
      rw [run_fetch_short hshort hfetch]
      exact ih (by omega) hnext hout (by omega)
    · obtain ⟨-, hkey⟩ | ⟨s', hhead, hrelease⟩ := h.headMayBeKey
      · exact absurd rfl hkey
      · obtain ⟨t, queue, hcons⟩ := List.exists_cons_of_ne_nil
          (List.ne_nil_of_length_pos (by omega : 0 < s.queue.length))
        have hlong : 2 ≤ queue.length := by
          rw [hcons, List.length_cons] at hshort
          omega
        have hhere : (kinds ++ List.replicate (n + 1) Token.Kind.streamEnd)[out.length]?
            = some t.kind := by
          rw [← hqueue, hcons, List.getElem?_append_right (by simp)]
          simp
        rw [run_release hcons hlong hhead]
        by_cases hlast : out.length = kinds.length
        · -- all else has gone: the first token is the end
          have hkind : t.kind = .streamEnd := by
            rw [List.getElem?_append_right (by omega), hlast] at hhere
            simpa using hhere.symm
          have hgone : out.map Token.kind = kinds := by
            have := congrArg (List.take out.length) hqueue
            rwa [List.take_left' (by simp), hlast, List.take_left' rfl] at this
          rw [if_pos hkind]
          simp [hgone, hkind]
        · have hmem : t.kind ∈ kinds := by
            rw [List.getElem?_append_left (by omega)] at hhere
            exact List.mem_of_getElem? hhere
          rw [if_neg (fun hkind : t.kind = .streamEnd => hkinds (hkind ▸ hmem))]
          have hrest := ih hn (hrelease t queue hcons) (by simp; omega) (by simp; omega)
          simpa using hrest

/-- **Scans follow readings.** If readings one after the other lead to the end of a text, the scan
gives all their tokens, whatever has left the queue in between. -/
theorem run_of_leads {last : Status} (hrest : last.rest = []) (hdepth : last.depth = 0)
    (hkey : last.key.Free)
    (hlast : .streamEnd ∉ last.kinds) {fuel : Nat} {st : Status} (hleads : Leads st last)
    {out : List Token} {s : Scanner} (h : At out st s)
    (hfuel : st.rest.length + (last.kinds.length + last.columns.length - out.length) + 3 < fuel) :
    (run fuel s).2 = none ∧ (out ++ (run fuel s).1).map Token.kind
      = last.kinds ++ List.replicate last.columns.length .blockEnd ++ [.streamEnd] := by
  induction fuel generalizing st out s with
  | zero => omega
  | succ fuel ih =>
    have hgrows := hleads.length_le
    obtain ⟨m, hm⟩ := h.kinds_queue
    have hlength : out.length + s.queue.length + m = st.kinds.length := by
      simpa [Nat.add_assoc] using (congrArg List.length hm).symm
    have hunended : .streamEnd ∉ st.kinds := by
      obtain rfl | ⟨next, hstep, -⟩ := Relation.ReflTransGen.cases_head hleads
      · exact hlast
      · exact hstep.unended
    have hfetch : ∃ t, s.fetch = .ok t ∧ (run fuel t).2 = none
        ∧ (out ++ (run fuel t).1).map Token.kind
          = last.kinds ++ List.replicate last.columns.length .blockEnd ++ [.streamEnd] := by
      obtain rfl | ⟨next, hstep, hnext⟩ := Relation.ReflTransGen.cases_head hleads
      · obtain ⟨t, ht, hat⟩ := h.fetch_end hrest hdepth hkey
        refine ⟨t, ht, run_ended (n := 0) ?_ (by omega) hat ?_ ?_⟩
        · simpa [List.mem_replicate] using hlast
        · rw [List.length_append]
          omega
        · rw [List.length_append, List.length_replicate]
          omega
      · obtain ⟨t, ht, hat⟩ := hstep.fetch h
        have := hstep.shrinks
        exact ⟨t, ht, ih hnext hat (by omega)⟩
    obtain ⟨t, ht, hrun⟩ := hfetch
    by_cases hshort : s.queue.length < 3
    · rwa [run_fetch_short hshort ht]
    · obtain ⟨hhead, -⟩ | ⟨s', hhead, hrelease⟩ := h.headMayBeKey
      · rwa [run_fetch_key hhead ht]
      · obtain ⟨first, queue, hcons⟩ := List.exists_cons_of_ne_nil
          (List.ne_nil_of_length_pos (by omega : 0 < s.queue.length))
        have hlong : 2 ≤ queue.length := by
          rw [hcons, List.length_cons] at hshort
          omega
        have hkind : first.kind ≠ .streamEnd := by
          intro hkind
          apply hunended
          rw [hm, hcons]
          simp [hkind]
        rw [run_release hcons hlong hhead, if_neg hkind]
        have hmore := ih hleads (hrelease first queue hcons) (by
          rw [List.length_append, List.length_singleton]
          omega)
        simpa using hmore

end RulePlan.Yaml.Scanner
