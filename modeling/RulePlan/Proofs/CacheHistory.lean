import Mathlib.Data.Finset.Card
import RulePlan.Proofs.CacheTransparency

/-!
# RulePlan.Proofs.CacheHistory — what a cache answers, from the calls made so far

A cache is described by its history alone. What it finds is what was stored last under the key since
it was cleared, and is not too old. That it does find it takes an argument about recency: an entry
stands behind those whose keys came up after its own was last stored or found, and is dropped only
when these fill the cache. An entry that has expired is moved to the front and then removed, which
together is removing it; a value that is missing is not stored and moves nothing.

Histories are read backwards, the latest call first, as a cache keeps its entries.
-/

namespace RulePlan

namespace Cache

variable {α : Type}

/-! ## Histories -/

/-- What a cache is asked for. The value to be stored may be missing. -/
inductive Task (α : Type) where
  | get (key : String)
  | set (key : String) (value : Option α)
  | clear

/-- A task at a time. -/
structure Call (α : Type) where
  time : Int
  task : Task α

/-- The key of a lookup or of a value to be stored. -/
def Call.key? (call : Call α) : Option String :=
  match call.task with
  | .get key => some key
  | .set key _ => some key
  | .clear => none

/-- A cache after a call. A missing value changes nothing. -/
def perform (c : Cache α) (call : Call α) : Cache α :=
  match call.task with
  | .get key => (c.get call.time key).1
  | .set key (some value) => c.set call.time key value
  | .set _ none => c
  | .clear => c.clear

/-- A cache after calls, the latest first. -/
def after (c : Cache α) : List (Call α) → Cache α
  | [] => c
  | call :: past => (c.after past).perform call

/-- The number of lookups since the cache was cleared. -/
def lookups : List (Call α) → Nat
  | [] => 0
  | call :: past =>
    match call.task with
    | .get _ => lookups past + 1
    | .set .. => lookups past
    | .clear => 0

/-- The value that was stored last under a key since the cache was cleared, with the time. -/
def lastStored? (key : String) : List (Call α) → Option (Int × α)
  | [] => none
  | call :: past =>
    match call.task with
    | .set k (some value) => if k = key then some (call.time, value) else lastStored? key past
    | .get _ => lastStored? key past
    | .set _ none => lastStored? key past
    | .clear => none

/-- The call stores a value under a key or finds one. -/
def touches (c : Cache α) (key : String) (call : Call α) : Bool :=
  match call.task with
  | .get k => k == key && (c.get call.time k).2.isSome
  | .set k value => k == key && value.isSome
  | .clear => false

/-- The calls since a value was last stored or found under a key. -/
def sinceTouched (c : Cache α) (key : String) : List (Call α) → List (Call α)
  | [] => []
  | call :: past =>
    if (c.after past).touches key call then [] else call :: sinceTouched c key past

/-- The other keys that came up in calls. -/
def otherKeys (key : String) (calls : List (Call α)) : Finset String :=
  (calls.filterMap Call.key?).toFinset.erase key

theorem mem_otherKeys {key x : String} {calls : List (Call α)} :
    x ∈ otherKeys key calls ↔ x ≠ key ∧ ∃ call ∈ calls, call.key? = some x := by
  unfold otherKeys
  rw [Finset.mem_erase, List.mem_toFinset, List.mem_filterMap]

theorem otherKeys_subset_cons (key : String) (call : Call α) (calls : List (Call α)) :
    otherKeys key calls ⊆ otherKeys key (call :: calls) := by
  intro x hx
  obtain ⟨hne, other, hother, hkey⟩ := mem_otherKeys.1 hx
  exact mem_otherKeys.2 ⟨hne, other, List.mem_cons_of_mem call hother, hkey⟩

/-! ## Single calls -/

/-- No two entries have the same key. -/
def Distinct (entries : List (CacheEntry α)) : Prop := (entries.map CacheEntry.key).Nodup

theorem mem_others {c : Cache α} {key : String} {e : CacheEntry α} :
    e ∈ c.others key ↔ e ∈ c.entries ∧ e.key ≠ key := by
  unfold others
  rw [List.mem_filter, bne_iff_ne]

theorem distinct_others {c : Cache α} (h : Distinct c.entries) (key : String) :
    Distinct (c.others key) :=
  h.sublist (List.filter_sublist.map CacheEntry.key)

theorem distinct_cons_others {c : Cache α} (h : Distinct c.entries) (e : CacheEntry α) :
    Distinct (e :: c.others e.key) := by
  refine List.nodup_cons.2 ⟨fun hmem => ?_, distinct_others h e.key⟩
  obtain ⟨other, hother, hkey⟩ := List.mem_map.1 hmem
  exact (mem_others.1 hother).2 hkey

/-- The entries under other keys are those around an entry. -/
theorem others_eq_append {c : Cache α} (h : Distinct c.entries) {front back : List (CacheEntry α)}
    {e : CacheEntry α} (heq : c.entries = front ++ e :: back) :
    c.others e.key = front ++ back := by
  unfold Distinct at h
  rw [heq, List.map_append, List.map_cons, List.nodup_append, List.nodup_cons] at h
  obtain ⟨-, ⟨hback, -⟩, hfront⟩ := h
  have hkeep : ∀ xs : List (CacheEntry α), (∀ x ∈ xs, x.key ≠ e.key) →
      xs.filter (·.key != e.key) = xs :=
    fun xs hxs => List.filter_eq_self.2 fun x hx => bne_iff_ne.2 (hxs x hx)
  unfold others
  rw [heq, List.filter_append, List.filter_cons_of_neg (by simp), hkeep front, hkeep back]
  · intro x hx hkey
    exact hback (hkey ▸ List.mem_map.2 ⟨x, hx, rfl⟩)
  · intro x hx
    exact hfront x.key (List.mem_map.2 ⟨x, hx, rfl⟩) e.key List.mem_cons_self

/-- A lookup misses, or it meets an entry. That is dropped if it is too old; otherwise it comes to
the front and is answered. -/
theorem get_cases (c : Cache α) (now : Int) (key : String) :
    ((∀ e ∈ c.entries, e.key ≠ key) ∧ c.get now key = ({ c with misses := c.misses + 1 }, none))
      ∨ ∃ e ∈ c.entries, e.key = key
        ∧ (c.maxAge < now - e.stored
            ∧ c.get now key
              = ({ c with entries := c.others key, misses := c.misses + 1 }, none)
          ∨ now - e.stored ≤ c.maxAge
            ∧ c.get now key
              = ({ c with entries := e :: c.others key, hits := c.hits + 1 }, some e.value)) := by
  unfold get
  split
  case h_1 hnone =>
    refine .inl ⟨fun e he hkey => ?_, rfl⟩
    exact List.find?_eq_none.1 hnone e he (beq_iff_eq.2 hkey)
  case h_2 e hfind =>
    refine .inr ⟨e, List.mem_of_find?_eq_some hfind, ?_, ?_⟩
    · simpa using List.find?_some hfind
    · split
      case isTrue hold => exact .inl ⟨hold, rfl⟩
      case isFalse hyoung => exact .inr ⟨Int.not_lt.1 hyoung, rfl⟩

/-! ## What the entries are -/

/-- The limits of a cache are those it started with, it has no more entries than they allow, each
under a key of its own and as it was stored last, and all lookups are counted. -/
structure Tracks (c start : Cache α) (past : List (Call α)) : Prop where
  capacity : c.capacity = start.capacity
  maxAge : c.maxAge = start.maxAge
  distinct : Distinct c.entries
  size_le : c.size ≤ start.capacity
  counted : c.hits + c.misses = lookups past
  recorded : ∀ e ∈ c.entries, lastStored? e.key past = some (e.stored, e.value)

section Steps

variable {start c : Cache α} {past : List (Call α)} {now : Int} {key : String}

theorem length_others_lt {e : CacheEntry α} (he : e ∈ c.entries) (hkey : e.key = key) :
    (c.others key).length < c.entries.length :=
  List.length_filter_lt_length_iff_exists.2 ⟨e, he, by simp [hkey]⟩

theorem Tracks.get (h : c.Tracks start past) (now : Int) (key : String) :
    ((c.get now key).1).Tracks start (⟨now, .get key⟩ :: past) := by
  have hsize : c.entries.length ≤ start.capacity := h.size_le
  have hcounted : c.hits + c.misses = lookups past := h.counted
  rcases get_cases c now key with ⟨-, heq⟩ | ⟨e, he, rfl, ⟨-, heq⟩ | ⟨-, heq⟩⟩
  · rw [heq]
    refine { h with counted := ?_ }
    show c.hits + (c.misses + 1) = lookups past + 1
    omega
  · rw [heq]
    refine
      { h with
        distinct := distinct_others h.distinct e.key
        size_le := ?_
        counted := ?_
        recorded := fun x hx => h.recorded x (mem_others.1 hx).1 }
    · exact (Nat.le_of_lt (length_others_lt he rfl)).trans hsize
    · show c.hits + (c.misses + 1) = lookups past + 1
      omega
  · rw [heq]
    refine
      { h with
        distinct := distinct_cons_others h.distinct e
        size_le := (Nat.succ_le_of_lt (length_others_lt he rfl)).trans hsize
        counted := ?_
        recorded := ?_ }
    · show c.hits + 1 + c.misses = lookups past + 1
      omega
    · intro x hx
      rcases List.mem_cons.1 hx with rfl | hx
      · exact h.recorded x he
      · exact h.recorded x (mem_others.1 hx).1

theorem Tracks.set (h : c.Tracks start past) (now : Int) (key : String) (value : α) :
    (c.set now key value).Tracks start (⟨now, .set key (some value)⟩ :: past) where
  capacity := h.capacity
  maxAge := h.maxAge
  distinct := by
    have hdistinct := distinct_cons_others h.distinct ⟨key, value, now⟩
    exact hdistinct.sublist ((List.take_sublist _ _).map CacheEntry.key)
  size_le := by
    rw [← h.capacity]
    exact List.length_take_le _ _
  counted := h.counted
  recorded := by
    intro e he
    rcases List.mem_cons.1 (List.mem_of_mem_take he) with rfl | he
    · exact if_pos rfl
    · obtain ⟨he, hkey⟩ := mem_others.1 he
      exact (if_neg (Ne.symm hkey)).trans (h.recorded e he)

theorem Tracks.clear (h : c.Tracks start past) (now : Int) :
    c.clear.Tracks start (⟨now, .clear⟩ :: past) where
  capacity := h.capacity
  maxAge := h.maxAge
  distinct := List.nodup_nil
  size_le := Nat.zero_le _
  counted := rfl
  recorded := nofun

/-- Every call keeps track. -/
theorem Tracks.perform (h : c.Tracks start past) (call : Call α) :
    (c.perform call).Tracks start (call :: past) := by
  obtain ⟨now, task⟩ := call
  cases task with
  | get key => exact h.get now key
  | set key value =>
    cases value with
    | none => exact { h with counted := h.counted, recorded := h.recorded }
    | some value => exact h.set now key value
  | clear => exact h.clear now

theorem tracks_after (hentries : start.entries = []) (hcounted : start.hits + start.misses = 0)
    (past : List (Call α)) : (start.after past).Tracks start past := by
  induction past with
  | nil =>
    refine ⟨rfl, rfl, ?_, ?_, hcounted, ?_⟩
    · rw [after, hentries]
      exact List.nodup_nil
    · rw [after, size, hentries]
      exact Nat.zero_le _
    · rw [after, hentries]
      exact nofun
  | cons call past ih => exact ih.perform call

/-- What is found was stored last and is not too old. -/
theorem Tracks.exists_of_get (h : c.Tracks start past) {value : α}
    (hget : (c.get now key).2 = some value) :
    ∃ stored, lastStored? key past = some (stored, value) ∧ now - stored ≤ start.maxAge
      ∧ (c.get now key).1.entries = ⟨key, value, stored⟩ :: c.others key := by
  rcases get_cases c now key with ⟨-, heq⟩ | ⟨e, he, rfl, ⟨-, heq⟩ | ⟨hyoung, heq⟩⟩
  · rw [heq] at hget
    exact nomatch hget
  · rw [heq] at hget
    exact nomatch hget
  · rw [heq] at hget ⊢
    obtain rfl := Option.some.inj hget
    exact ⟨e.stored, h.recorded e he, h.maxAge ▸ hyoung, rfl⟩

/-- A lookup that meets an entry too old removes it and counts as a miss. -/
theorem Tracks.get_expired (h : c.Tracks start past) {e : CacheEntry α} (he : e ∈ c.entries)
    (hold : start.maxAge < now - e.stored) :
    ∃ front back, c.entries = front ++ e :: back ∧ c.get now e.key
      = ({ c with entries := front ++ back, misses := c.misses + 1 }, none) := by
  obtain ⟨front, back, heq⟩ := List.append_of_mem he
  refine ⟨front, back, heq, ?_⟩
  rw [← others_eq_append h.distinct heq]
  rcases get_cases c now e.key with ⟨hnone, -⟩ | ⟨f, hf, hkey, ⟨-, hget⟩ | ⟨hyoung, -⟩⟩
  · exact absurd rfl (hnone e he)
  · exact hget
  · -- the entry found is the one that was stored last, so it is as old
    have hrecorded := h.recorded f hf
    rw [hkey, h.recorded e he] at hrecorded
    obtain ⟨hstored, -⟩ := Prod.mk.inj (Option.some.inj hrecorded)
    rw [h.maxAge] at hyoung
    omega

end Steps

/-! ## What the entries are not dropped for -/

/-- An entry is there, and only entries under certain keys are in front of it. -/
def Holds (e : CacheEntry α) (keys : Finset String) (entries : List (CacheEntry α)) : Prop :=
  ∃ front back, entries = front ++ e :: back ∧ ∀ x ∈ front, x.key ∈ keys

section Holds

variable {e : CacheEntry α} {keys : Finset String} {entries : List (CacheEntry α)}

theorem Holds.mem (h : Holds e keys entries) : e ∈ entries := by
  obtain ⟨front, back, rfl, -⟩ := h
  exact List.mem_append_right front List.mem_cons_self

theorem Holds.mono {keys' : Finset String} (h : Holds e keys entries) (hsubset : keys ⊆ keys') :
    Holds e keys' entries := by
  obtain ⟨front, back, heq, hfront⟩ := h
  exact ⟨front, back, heq, fun x hx => hsubset (hfront x hx)⟩

theorem Holds.cons (h : Holds e keys entries) {f : CacheEntry α} (hf : f.key ∈ keys) :
    Holds e keys (f :: entries) := by
  obtain ⟨front, back, rfl, hfront⟩ := h
  exact ⟨f :: front, back, rfl, List.forall_mem_cons.2 ⟨hf, hfront⟩⟩

theorem Holds.filter (h : Holds e keys entries) {p : CacheEntry α → Bool} (he : p e = true) :
    Holds e keys (entries.filter p) := by
  obtain ⟨front, back, rfl, hfront⟩ := h
  refine ⟨front.filter p, back.filter p, ?_, fun x hx => hfront x (List.mem_filter.1 hx).1⟩
  rw [List.filter_append, List.filter_cons_of_pos he]

/-- As long as there is room for the keys in front of it and one more, an entry is not dropped. -/
theorem Holds.take (h : Holds e keys entries) (hdistinct : Distinct entries) {n : Nat}
    (hn : keys.card < n) : Holds e keys (entries.take n) := by
  obtain ⟨front, back, rfl, hfront⟩ := h
  have hnodup : (front.map CacheEntry.key).Nodup := by
    unfold Distinct at hdistinct
    rw [List.map_append] at hdistinct
    exact (List.nodup_append.1 hdistinct).1
  have hlength : front.length ≤ keys.card := by
    rw [← List.length_map CacheEntry.key, ← List.toFinset_card_of_nodup hnodup]
    refine Finset.card_le_card fun x hx => ?_
    obtain ⟨f, hf, rfl⟩ := List.mem_map.1 (List.mem_toFinset.1 hx)
    exact hfront f hf
  obtain ⟨m, hm⟩ := Nat.exists_eq_add_of_lt (Nat.lt_of_le_of_lt hlength hn)
  refine ⟨front, back.take m, ?_, hfront⟩
  rw [hm, Nat.add_assoc, List.take_length_add_append, List.take_succ_cons]

end Holds

section Recency

variable {start c : Cache α} {past : List (Call α)}

/-- A call that does not touch the key of an entry, and leaves it its time, leaves it behind the
keys so far and its own. -/
theorem Holds.perform {e : CacheEntry α} {keys : Finset String} (h : Holds e keys c.entries)
    (hdistinct : Distinct c.entries) {call : Call α} (hclear : call.task ≠ .clear)
    (htouches : c.touches e.key call = false)
    (hget : (c.get call.time e.key).2 = some e.value)
    (hkeys : ∀ x, call.key? = some x → x ≠ e.key → x ∈ keys) (hroom : keys.card < c.capacity) :
    Holds e keys (c.perform call).entries := by
  obtain ⟨now, task⟩ := call
  cases task with
  | get key =>
    show Holds e keys (c.get now key).1.entries
    have hkey : key ≠ e.key := by
      rintro rfl
      -- a lookup of the key finds the entry, and so touches it
      simp [touches, hget] at htouches
    have hothers : Holds e keys (c.others key) := h.filter (bne_iff_ne.2 (Ne.symm hkey))
    rcases get_cases c now key with ⟨-, heq⟩ | ⟨f, -, hf, ⟨-, heq⟩ | ⟨-, heq⟩⟩
    · rw [heq]
      exact h
    · rw [heq]
      exact hothers
    · rw [heq]
      exact hothers.cons (hf ▸ hkeys key rfl hkey)
  | set key value =>
    cases value with
    | none => exact h
    | some value =>
      have hkey : key ≠ e.key := by simpa [touches] using htouches
      have hothers : Holds e keys (c.others key) := h.filter (bne_iff_ne.2 (Ne.symm hkey))
      exact (hothers.cons (hkeys key rfl hkey)).take
        (distinct_cons_others hdistinct ⟨key, value, now⟩) hroom
  | clear => exact absurd rfl hclear

/-- An entry that is not too old is found. -/
theorem Tracks.get_of_mem (h : c.Tracks start past) {e : CacheEntry α} (he : e ∈ c.entries)
    {now : Int} (hyoung : now - e.stored ≤ start.maxAge) :
    (c.get now e.key).2 = some e.value := by
  rcases get_cases c now e.key with ⟨hnone, -⟩ | ⟨f, hf, hkey, hcases⟩
  · exact absurd rfl (hnone e he)
  · have hrecorded := h.recorded f hf
    rw [hkey, h.recorded e he] at hrecorded
    obtain ⟨hstored, hvalue⟩ := Prod.mk.inj (Option.some.inj hrecorded)
    rcases hcases with ⟨hold, -⟩ | ⟨-, heq⟩
    · rw [h.maxAge] at hold
      omega
    · rw [heq, hvalue]

/-- What a call has just stored or found is in front of all other entries. -/
theorem Tracks.exists_of_touches (h : c.Tracks start past) (hcapacity : 0 < start.capacity)
    {key : String} {call : Call α} (htouches : c.touches key call = true) {stored : Int} {value : α}
    (hlast : lastStored? key (call :: past) = some (stored, value)) :
    ∃ back, (c.perform call).entries = ⟨key, value, stored⟩ :: back := by
  obtain ⟨time, task⟩ := call
  cases task with
  | get k =>
    simp only [touches, Bool.and_eq_true, beq_iff_eq, Option.isSome_iff_exists] at htouches
    obtain ⟨rfl, found, hget⟩ := htouches
    obtain ⟨stored', hlast', -, hfront⟩ := h.exists_of_get hget
    obtain ⟨rfl, rfl⟩ : stored' = stored ∧ found = value :=
      Prod.mk.inj (Option.some.inj (hlast'.symm.trans hlast))
    exact ⟨_, hfront⟩
  | set k offered =>
    simp only [touches, Bool.and_eq_true, beq_iff_eq, Option.isSome_iff_exists] at htouches
    obtain ⟨rfl, found, rfl⟩ := htouches
    obtain ⟨rfl, rfl⟩ : time = stored ∧ found = value :=
      Prod.mk.inj (Option.some.inj ((if_pos rfl).symm.trans hlast))
    obtain ⟨n, hn⟩ := Nat.exists_eq_add_one.2 hcapacity
    refine ⟨(c.others k).take n, ?_⟩
    show List.take c.capacity _ = _
    rw [h.capacity, hn, List.take_succ_cons]
  | clear => cases htouches

/-- A call that stores nothing under a key, and clears nothing, leaves what was stored last. -/
theorem lastStored?_of_not_touches {key : String} {call : Call α}
    (htouches : ¬c.touches key call = true) {last : Int × α}
    (hlast : lastStored? key (call :: past) = some last) :
    call.task ≠ .clear ∧ lastStored? key past = some last := by
  obtain ⟨time, task⟩ := call
  cases task with
  | get k => exact ⟨nofun, hlast⟩
  | clear => cases hlast
  | set k offered =>
    refine ⟨nofun, ?_⟩
    cases offered with
    | none => exact hlast
    | some offered =>
      have hkey : k ≠ key := by simpa [touches] using htouches
      exact (if_neg hkey).symm.trans hlast

/-- What was stored last is still there, behind no other keys than those that came up after it was
stored or found, unless these fill the cache or a call came too late for it. -/
theorem holds_after (hentries : start.entries = []) (hcounted : start.hits + start.misses = 0)
    {now stored : Int} {key : String} {value : α} (hyoung : now - stored ≤ start.maxAge) :
    ∀ past : List (Call α), (∀ call ∈ past, call.time ≤ now) →
      lastStored? key past = some (stored, value) →
      (otherKeys key (sinceTouched start key past)).card < start.capacity →
      Holds ⟨key, value, stored⟩ (otherKeys key (sinceTouched start key past))
        (start.after past).entries := by
  intro past
  induction past with
  | nil =>
    intro _ hlast
    cases hlast
  | cons call past ih =>
    intro htimes hlast hroom
    have htracks := tracks_after hentries hcounted past
    unfold sinceTouched at hroom ⊢
    by_cases htouches : (start.after past).touches key call = true
    · -- stored or found just now, so in front of all others
      rw [if_pos htouches] at hroom ⊢
      obtain ⟨back, hfront⟩ :=
        htracks.exists_of_touches (Nat.zero_lt_of_lt hroom) htouches hlast
      exact ⟨[], back, hfront, nofun⟩
    · rw [if_neg htouches] at hroom ⊢
      obtain ⟨hclear, hsame⟩ := lastStored?_of_not_touches htouches hlast
      have hsubset := otherKeys_subset_cons key call (sinceTouched start key past)
      have hholds := ih (fun call hcall => htimes call (List.mem_cons_of_mem _ hcall)) hsame
        (Nat.lt_of_le_of_lt (Finset.card_le_card hsubset) hroom)
      have htime : call.time ≤ now := htimes _ List.mem_cons_self
      refine (hholds.mono hsubset).perform htracks.distinct hclear (by simpa using htouches)
        ?_ ?_ ?_
      · exact htracks.get_of_mem hholds.mem (by show call.time - stored ≤ _; omega)
      · intro x hx hne
        exact mem_otherKeys.2 ⟨hne, _, List.mem_cons_self, hx⟩
      · rw [htracks.capacity]
        exact hroom

end Recency

/-! ## Answers -/

/-- How a cache that was empty at the start answers after calls, within limits on the number of
entries and on their age. -/
structure Faithful (start : Cache α) (limit : Nat) (age : Int) (past : List (Call α)) : Prop where
  size_le : (start.after past).size ≤ limit
  counted : (start.after past).hits + (start.after past).misses = lookups past
  found : ∀ now key value, ((start.after past).get now key).2 = some value →
    ∃ stored, lastStored? key past = some (stored, value) ∧ now - stored ≤ age
  kept : ∀ now key stored value, (∀ call ∈ past, call.time ≤ now) →
    lastStored? key past = some (stored, value) → now - stored ≤ age →
      (otherKeys key (sinceTouched start key past)).card < limit →
        ((start.after past).get now key).2 = some value
  expired : ∀ now, ∀ e ∈ (start.after past).entries, age < now - e.stored →
    ∃ front back, (start.after past).entries = front ++ e :: back
      ∧ (start.after past).get now e.key
        = ({ start.after past with
              entries := front ++ back
              misses := (start.after past).misses + 1 }, none)

/-- **A cache answers from its history.** However a cache is used, it holds no more entries than its
capacity and has counted every lookup since it was cleared. It answers with a value only if that was
stored last under the key and is not too old. It does so if moreover fewer other keys came up than
it has room for, in lookups or with values to be stored, since the value was stored or found. A
lookup that meets an entry too old counts as a miss and removes that entry alone. A capacity that is
not positive means 128, an age that is not positive means five minutes. -/
theorem faithful_create (capacity maxAge : Int) (past : List (Call α)) :
    Faithful (create capacity maxAge) (if capacity ≤ 0 then 128 else capacity.toNat)
      (if maxAge ≤ 0 then 300000000000 else maxAge) past := by
  have htracks : ((create capacity maxAge).after past).Tracks (create capacity maxAge) past :=
    tracks_after rfl rfl past
  refine ⟨htracks.size_le, htracks.counted, ?_, ?_, ?_⟩
  · intro now key value hget
    obtain ⟨stored, hlast, hyoung, -⟩ := htracks.exists_of_get hget
    exact ⟨stored, hlast, hyoung⟩
  · intro now key stored value htimes hlast hyoung hroom
    exact htracks.get_of_mem (holds_after rfl rfl hyoung past htimes hlast hroom).mem hyoung
  · intro now e he hold
    exact htracks.get_expired he hold

/-- One value, stored once. -/
def storedOnce : List (Call Nat) := [⟨0, .set "k" (some 7)⟩]

/-- A value that others have displaced, with nothing stored in its place. -/
def displaced : List (Call Nat) :=
  [⟨0, .set "k" none⟩, ⟨0, .set "x" (some 8)⟩, ⟨0, .set "k" (some 7)⟩]

/-- A cache whose age limit is not positive answers with a value that is older than that, and a
missing value does not bring back one that was dropped before. -/
theorem get_storedOnce_displaced :
    (lastStored? "k" storedOnce = some (0, 7) ∧ ¬ ((1 : Int) - 0 ≤ 0)
        ∧ (((create 1 0).after storedOnce).get 1 "k").2 = some 7)
      ∧ lastStored? "k" displaced = some (0, 7) ∧ (0 : Int) - 0 ≤ 1
        ∧ (((create 1 1).after displaced).get 0 "k").2 = none := by
  decide

end Cache

end RulePlan
