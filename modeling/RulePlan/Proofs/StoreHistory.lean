import RulePlan.Proofs.CacheTransparency
import RulePlan.Proofs.KeptArtifacts

/-!
# RulePlan.Proofs.StoreHistory — a store of artifacts is a map from kinds and keys

The store is one sequence of paths in byte order, and a kind is listed by the beginning of its
paths. What makes it a map is that a path names one kind and one key, and that the paths of a kind
are those that begin as they do: the name of a kind has no slash. So the entries are at all times
those of the artifacts that were put last under their kinds and keys and not deleted since. Changes
that are refused change nothing.

An artifact comes back as its kept form reads. For artifacts whose names are single lines that is
the artifact itself; a line break at the start of a name is lost in the kept form.
-/

namespace RulePlan

namespace Artifact

/-- An artifact with the time at which it is kept, if it has none of its own. -/
def dated (now : Timestamp) (a : Artifact) : Artifact :=
  if a.created.isZero then { a with created := now } else a

/-- An artifact as its kept form reads. -/
def reread (a : Artifact) : Except DecodeFault Artifact := decode a.encode

/-- The place of an artifact in a store. -/
def path (a : Artifact) : String := Store.path a.kind a.key

/-- What a store has of an artifact. -/
def entry (a : Artifact) : String × String := (a.path, a.encode)

theorem dated_kind_key (now : Timestamp) (a : Artifact) :
    (a.dated now).kind = a.kind ∧ (a.dated now).key = a.key := by
  unfold dated
  split <;> exact ⟨rfl, rfl⟩

theorem path_dated (now : Timestamp) (a : Artifact) : (a.dated now).path = a.path := by
  unfold path
  rw [(dated_kind_key now a).1, (dated_kind_key now a).2]

theorem path_eq_iff {a b : Artifact} : a.path = b.path ↔ a.kind = b.kind ∧ a.key = b.key := by
  constructor
  · exact Store.path_inj
  · rintro ⟨hkind, hkey⟩
    unfold path
    rw [hkind, hkey]

end Artifact

namespace Store

open Artifact (entry)

/-! ## Histories -/

/-- What a store may be asked to change. -/
inductive Change where
  | put (now : Timestamp) (a : Artifact)
  | delete (kind : ArtifactKind) (key : String)

/-- The kind that a change is about. -/
def Change.kind : Change → ArtifactKind
  | .put _ a => a.kind
  | .delete kind _ => kind

/-- A change is refused for an empty key, for a path that is too long, and for a kept form beyond
the limit of the store. -/
def Change.Fits (limit : Option Nat) : Change → Prop
  | .put now a => a.key ≠ "" ∧ Text.byteLength a.path ≤ StoreFault.longestPath
    ∧ ∀ most ∈ limit, Text.byteLength (a.dated now).encode ≤ most
  | .delete kind key => Text.byteLength (path kind key) ≤ StoreFault.longestPath

instance (limit : Option Nat) (change : Change) : Decidable (change.Fits limit) := by
  cases change <;> unfold Change.Fits <;> infer_instance

/-- The answer of a store to a change. -/
def change (s : Store) : Change → Except StoreFault Store
  | .put now a => s.put now a
  | .delete kind key => s.delete kind key

/-- A store after changes, the latest first. One that is refused leaves it as it is. -/
def after (s : Store) : List Change → Store
  | [] => s
  | c :: past =>
    match (s.after past).change c with
    | .ok s' => s'
    | .error _ => s.after past

/-- The artifact that was put last under a kind and a key and not deleted since. -/
def lastPut? (limit : Option Nat) (kind : ArtifactKind) (key : String) :
    List Change → Option Artifact
  | [] => none
  | c :: past =>
    if c.Fits limit then
      match c with
      | .put now a =>
        if a.kind = kind ∧ a.key = key then some (a.dated now) else lastPut? limit kind key past
      | .delete k x => if k = kind ∧ x = key then none else lastPut? limit kind key past
    else lastPut? limit kind key past

theorem lastPut?_refused {limit : Option Nat} {c : Change} (h : ¬c.Fits limit)
    (kind : ArtifactKind) (key : String) (past : List Change) :
    lastPut? limit kind key (c :: past) = lastPut? limit kind key past := by
  cases c <;> exact if_neg h

theorem lastPut?_put {limit : Option Nat} {now : Timestamp} {a : Artifact}
    (h : (Change.put now a).Fits limit) (kind : ArtifactKind) (key : String) (past : List Change) :
    lastPut? limit kind key (.put now a :: past)
      = if a.kind = kind ∧ a.key = key then some (a.dated now)
        else lastPut? limit kind key past :=
  if_pos h

theorem lastPut?_delete {limit : Option Nat} {k : ArtifactKind} {x : String}
    (h : (Change.delete k x).Fits limit) (kind : ArtifactKind) (key : String)
    (past : List Change) :
    lastPut? limit kind key (.delete k x :: past)
      = if k = kind ∧ x = key then none else lastPut? limit kind key past :=
  if_pos h

theorem kind_key_of_lastPut? {limit : Option Nat} {kind : ArtifactKind} {key : String}
    {a : Artifact} {past : List Change} (h : lastPut? limit kind key past = some a) :
    a.kind = kind ∧ a.key = key := by
  induction past with
  | nil => cases h
  | cons c past ih =>
    by_cases hfits : c.Fits limit
    · cases c with
      | put now b =>
        rw [lastPut?_put hfits] at h
        split at h
        case isTrue hb =>
          obtain rfl := Option.some.inj h
          rw [(Artifact.dated_kind_key now b).1, (Artifact.dated_kind_key now b).2]
          exact hb
        case isFalse => exact ih h
      | delete k x =>
        rw [lastPut?_delete hfits] at h
        split at h
        case isTrue => cases h
        case isFalse => exact ih h
    · rw [lastPut?_refused hfits] at h
      exact ih h

/-! ## Changes as they are carried out -/

/-- The entries of a store after a change that fits. -/
def Change.carriedOut (entries : List (String × String)) : Change → List (String × String)
  | .put now a => insert a.path (a.dated now).encode entries
  | .delete kind key => entries.filter (·.1 != path kind key)

theorem put_eq (s : Store) (now : Timestamp) (a : Artifact) :
    (∃ fault, ¬(Change.put now a).Fits s.limit ∧ s.put now a = .error fault)
      ∨ (Change.put now a).Fits s.limit
        ∧ s.put now a = .ok { s with entries := (Change.put now a).carriedOut s.entries } := by
  have hdated : (if a.created.isZero then { a with created := now } else a) = a.dated now := rfl
  have hplace : path a.kind a.key = a.path := rfl
  unfold put Change.Fits Change.carriedOut
  by_cases hkey : a.key = ""
  · exact .inl ⟨_, fun h => h.1 hkey, if_pos hkey⟩
  · simp only [hkey, if_false, hdated, (Artifact.dated_kind_key now a).1,
      (Artifact.dated_kind_key now a).2, hplace]
    by_cases hlong : StoreFault.longestPath < Text.byteLength a.path
    · exact .inl ⟨_, fun h => absurd h.2.1 (Nat.not_le.2 hlong), if_pos hlong⟩
    · rw [if_neg hlong]
      cases hlimit : s.limit with
      | none => exact .inr ⟨⟨hkey, Nat.not_lt.1 hlong, by simp⟩, rfl⟩
      | some most =>
        by_cases hlarge : most < Text.byteLength (a.dated now).encode
        · refine .inl ⟨_, fun h => ?_, if_pos hlarge⟩
          exact absurd (h.2.2 most rfl) (Nat.not_le.2 hlarge)
        · refine .inr ⟨⟨hkey, Nat.not_lt.1 hlong, ?_⟩, if_neg hlarge⟩
          rintro _ ⟨⟩
          exact Nat.not_lt.1 hlarge

/-- A change is refused if it does not fit, and carried out if it does. -/
theorem change_eq (s : Store) (c : Change) :
    (∃ fault, ¬c.Fits s.limit ∧ s.change c = .error fault)
      ∨ c.Fits s.limit ∧ s.change c = .ok { s with entries := c.carriedOut s.entries } := by
  cases c with
  | put now a => exact put_eq s now a
  | delete kind key =>
    by_cases hlong : StoreFault.longestPath < Text.byteLength (path kind key)
    · exact .inl ⟨_, Nat.not_le.2 hlong, if_pos hlong⟩
    · exact .inr ⟨Nat.not_lt.1 hlong, if_neg hlong⟩

theorem exists_error_iff (s : Store) (c : Change) :
    (∃ fault, s.change c = .error fault) ↔ ¬c.Fits s.limit := by
  rcases change_eq s c with ⟨fault, hfits, h⟩ | ⟨hfits, h⟩
  · exact ⟨fun _ => hfits, fun _ => ⟨fault, h⟩⟩
  · refine ⟨fun ⟨fault, hfault⟩ => ?_, fun hmisfit => absurd hfits hmisfit⟩
    rw [h] at hfault
    cases hfault

theorem after_of_error {s : Store} {c : Change} {fault : StoreFault}
    (h : s.change c = .error fault) : s.after [c] = s := by
  show (match s.change c with | .ok s' => s' | .error _ => s) = s
  rw [h]

theorem after_cons (s : Store) (c : Change) (past : List Change) :
    s.after (c :: past) = if c.Fits (s.after past).limit
      then { s.after past with entries := c.carriedOut (s.after past).entries }
      else s.after past := by
  show (match (s.after past).change c with | .ok s' => s' | .error _ => s.after past) = _
  rcases change_eq (s.after past) c with ⟨fault, hfits, hchange⟩ | ⟨hfits, hchange⟩
  · rw [hchange, if_neg hfits]
  · rw [hchange, if_pos hfits]

/-! ## Artifacts in order of their paths -/

/-- Puts an artifact at its place among others. -/
def arrange (a : Artifact) : List Artifact → List Artifact
  | [] => [a]
  | b :: rest =>
    if a.path < b.path then a :: b :: rest
    else if a.path = b.path then a :: rest
    else b :: arrange a rest

theorem insert_map (a : Artifact) (live : List Artifact) :
    insert a.path a.encode (live.map entry) = (arrange a live).map entry := by
  induction live with
  | nil => rfl
  | cons b rest ih =>
    rw [List.map_cons]
    unfold entry insert arrange
    split
    · rfl
    · split
      · rfl
      · rw [List.map_cons]
        exact congrArg _ ih

/-- In order of their paths, no two at one path. -/
def Arranged (live : List Artifact) : Prop := live.Pairwise (·.path < ·.path)

theorem mem_arrange {a b : Artifact} {live : List Artifact} (h : Arranged live) :
    b ∈ arrange a live ↔ b = a ∨ b ∈ live ∧ b.path ≠ a.path := by
  induction live with
  | nil => simp [arrange]
  | cons c rest ih =>
    obtain ⟨hfirst, hrest⟩ := List.pairwise_cons.1 h
    -- What follows the place of `a` has a greater path.
    have later {x : Artifact} (hx : x ∈ rest) (hac : a.path ≤ c.path) : x.path ≠ a.path :=
      (lt_of_le_of_lt hac (hfirst x hx)).ne'
    unfold arrange
    split
    case isTrue hlt =>
      simp only [List.mem_cons]
      constructor
      · rintro (rfl | rfl | hb)
        · exact .inl rfl
        · exact .inr ⟨.inl rfl, hlt.ne'⟩
        · exact .inr ⟨.inr hb, later hb hlt.le⟩
      · rintro (rfl | ⟨hb, -⟩)
        · exact .inl rfl
        · exact .inr hb
    case isFalse hlt =>
      split
      case isTrue heq =>
        simp only [List.mem_cons]
        constructor
        · rintro (rfl | hb)
          · exact .inl rfl
          · exact .inr ⟨.inr hb, later hb heq.le⟩
        · rintro (rfl | ⟨rfl | hb, hne⟩)
          · exact .inl rfl
          · exact absurd heq.symm hne
          · exact .inr hb
      case isFalse hne =>
        simp only [List.mem_cons, ih hrest]
        constructor
        · rintro (rfl | rfl | ⟨hb, hba⟩)
          · exact .inr ⟨.inl rfl, Ne.symm hne⟩
          · exact .inl rfl
          · exact .inr ⟨.inr hb, hba⟩
        · rintro (rfl | ⟨rfl | hb, hba⟩)
          · exact .inr (.inl rfl)
          · exact .inl rfl
          · exact .inr (.inr ⟨hb, hba⟩)

theorem Arranged.arrange {live : List Artifact} (h : Arranged live) (a : Artifact) :
    Arranged (arrange a live) := by
  induction live with
  | nil => exact List.pairwise_singleton _ _
  | cons c rest ih =>
    obtain ⟨hfirst, hrest⟩ := List.pairwise_cons.1 h
    unfold Store.arrange
    split
    case isTrue hlt =>
      refine List.pairwise_cons.2 ⟨fun x hx => ?_, h⟩
      rcases List.mem_cons.1 hx with rfl | hx
      · exact hlt
      · exact hlt.trans (hfirst x hx)
    case isFalse hlt =>
      split
      case isTrue heq => exact List.pairwise_cons.2 ⟨fun x hx => heq ▸ hfirst x hx, hrest⟩
      case isFalse hne =>
        refine List.pairwise_cons.2 ⟨fun x hx => ?_, ih hrest⟩
        rcases (mem_arrange hrest).1 hx with rfl | ⟨hx, -⟩
        · exact lt_of_le_of_ne (not_lt.1 hlt) (Ne.symm hne)
        · exact hfirst x hx

/-! ## What a store has at all times -/

/-- A store after changes: the artifacts that were put last and not deleted since, in order. -/
structure Holds (s : Store) (limit : Option Nat) (past : List Change) (live : List Artifact) :
    Prop where
  entries_eq : s.entries = live.map entry
  limit_eq : s.limit = limit
  arranged : Arranged live
  mem : ∀ a, a ∈ live ↔ lastPut? limit a.kind a.key past = some a

theorem holds_empty (limit : Option Nat) : Holds ⟨[], limit⟩ limit [] [] where
  entries_eq := rfl
  limit_eq := rfl
  arranged := List.Pairwise.nil
  mem _ := ⟨nofun, nofun⟩

variable {s : Store} {limit : Option Nat} {past : List Change} {live : List Artifact}

theorem Holds.refuse (h : s.Holds limit past live) {c : Change} (hfits : ¬c.Fits limit) :
    s.Holds limit (c :: past) live :=
  { h with mem := fun a => by rw [lastPut?_refused hfits]; exact h.mem a }

theorem Holds.put (h : s.Holds limit past live) {now : Timestamp} {a : Artifact}
    (hfits : (Change.put now a).Fits limit) :
    Holds { s with entries := (Change.put now a).carriedOut s.entries } limit (.put now a :: past)
      (arrange (a.dated now) live) where
  entries_eq := by
    show insert a.path (a.dated now).encode s.entries = _
    rw [h.entries_eq, ← Artifact.path_dated now a, insert_map]
  limit_eq := h.limit_eq
  arranged := h.arranged.arrange _
  mem b := by
    rw [mem_arrange h.arranged, lastPut?_put hfits, Artifact.path_dated, ne_eq,
      Artifact.path_eq_iff, h.mem b]
    by_cases hsame : a.kind = b.kind ∧ a.key = b.key
    · simp only [hsame, and_self, if_true, not_true, and_false, or_false]
      exact ⟨fun hb => hb ▸ rfl, fun hb => (Option.some.inj hb).symm⟩
    · have hother : b ≠ a.dated now := by
        rintro rfl
        exact hsame ⟨(Artifact.dated_kind_key now a).1.symm, (Artifact.dated_kind_key now a).2.symm⟩
      have hapart : ¬(b.kind = a.kind ∧ b.key = a.key) :=
        fun heq => hsame ⟨heq.1.symm, heq.2.symm⟩
      simp only [hsame, if_false, hother, hapart, not_false_iff, and_true, false_or]

theorem Holds.delete (h : s.Holds limit past live) {kind : ArtifactKind} {key : String}
    (hfits : (Change.delete kind key).Fits limit) :
    Holds { s with entries := (Change.delete kind key).carriedOut s.entries } limit
      (.delete kind key :: past) (live.filter (·.path != path kind key)) where
  entries_eq := by
    show s.entries.filter (·.1 != path kind key) = _
    rw [h.entries_eq, List.filter_map]
    rfl
  limit_eq := h.limit_eq
  arranged := h.arranged.filter _
  mem b := by
    have hpath : b.path = path kind key ↔ kind = b.kind ∧ key = b.key := by
      constructor
      · exact fun heq => ⟨(path_inj heq).1.symm, (path_inj heq).2.symm⟩
      · rintro ⟨rfl, rfl⟩
        rfl
    rw [List.mem_filter, lastPut?_delete hfits, bne_iff_ne, ne_eq, hpath, h.mem b]
    by_cases hsame : kind = b.kind ∧ key = b.key
    · simp only [hsame, and_self, if_true, not_true, and_false, reduceCtorEq]
    · simp only [hsame, if_false, not_false_iff, and_true]

/-- However a store that was empty is changed, it has the artifacts that were put last. -/
theorem exists_holds (limit : Option Nat) (past : List Change) :
    ∃ live, ((Store.mk [] limit).after past).Holds limit past live := by
  induction past with
  | nil => exact ⟨[], holds_empty limit⟩
  | cons c past ih =>
    obtain ⟨live, hlive⟩ := ih
    rw [after_cons, hlive.limit_eq]
    split
    case isTrue hfits =>
      cases c with
      | put now a => exact ⟨_, hlive.put hfits⟩
      | delete kind key => exact ⟨_, hlive.delete hfits⟩
    case isFalse hfits => exact ⟨live, hlive.refuse hfits⟩

/-! ## Reading -/

theorem lookup_map (p : String) (live : List Artifact) :
    (live.map entry).lookup p = (live.find? (·.path == p)).map Artifact.encode := by
  induction live with
  | nil => rfl
  | cons a rest ih =>
    rw [List.map_cons, entry, List.lookup_cons, List.find?_cons, BEq.comm]
    cases a.path == p with
    | true => rfl
    | false => exact ih

theorem Holds.find?_eq (h : s.Holds limit past live) (kind : ArtifactKind) (key : String) :
    live.find? (·.path == path kind key) = lastPut? limit kind key past := by
  cases hfind : live.find? (·.path == path kind key) with
  | some a =>
    have hpath : a.path = path kind key := by simpa using List.find?_some hfind
    obtain ⟨rfl, rfl⟩ := path_inj hpath
    exact ((h.mem a).1 (List.mem_of_find?_eq_some hfind)).symm
  | none =>
    cases hlast : lastPut? limit kind key past with
    | none => rfl
    | some a =>
      obtain ⟨rfl, rfl⟩ := kind_key_of_lastPut? hlast
      exact absurd BEq.rfl (List.find?_eq_none.1 hfind a ((h.mem a).2 hlast))

theorem Holds.get_eq (h : s.Holds limit past live) (kind : ArtifactKind) (key : String) :
    s.get kind key = match lastPut? limit kind key past with
      | some a => a.reread.mapError (.unreadable key)
      | none => .error .notFound := by
  unfold get
  rw [h.entries_eq, lookup_map, h.find?_eq]
  cases lastPut? limit kind key past with
  | none => rfl
  | some a =>
    simp only [Option.map_some, Artifact.reread]
    generalize Artifact.decode a.encode = result
    cases result <;> rfl

/-- The paths of a kind are those that begin as they do. -/
theorem isPrefixOf_path (kind : ArtifactKind) (a : Artifact) :
    (pathOfKind kind).toList.isPrefixOf a.path.toList = (a.kind == kind) := by
  rw [Bool.eq_iff_iff, List.isPrefixOf_iff_prefix, beq_iff_eq]
  simp only [Artifact.path, path, pathOfKind, String.toList_append, List.append_assoc]
  constructor
  · rintro ⟨rest, htext⟩
    simp only [List.append_assoc] at htext
    have hlabel := Text.eq_of_append_mark (ArtifactKind.slash_not_mem_label kind)
      (ArtifactKind.slash_not_mem_label a.kind) (List.append_cancel_left htext)
    exact ArtifactKind.label_injective (String.toList_inj.1 hlabel.1.symm)
  · rintro rfl
    exact ⟨a.key.toList, by simp only [List.append_assoc]⟩

/-- Paths of one kind are in the order of their keys. -/
theorem key_lt_of_path_lt {kind : ArtifactKind} {key key' : String}
    (h : path kind key < path kind key') : key < key' := by
  rcases lt_trichotomy key key' with hlt | rfl | hgt
  · exact hlt
  · exact absurd h (lt_irrefl _)
  · have hback : path kind key' < path kind key := by
      rw [String.lt_iff_toList_lt] at hgt ⊢
      simp only [path, String.toList_append]
      exact List.append_left_lt hgt
    exact absurd h (lt_asymm hback)

/-- The artifacts of one kind among others. -/
def ofKind (kind : ArtifactKind) (live : List Artifact) : List Artifact :=
  live.filter (·.kind == kind)

theorem Arranged.keys {live : List Artifact} (h : Arranged live) (kind : ArtifactKind) :
    (ofKind kind live).Pairwise (·.key < ·.key) := by
  refine (h.filter _).imp_of_mem fun {a b} ha hb hab => ?_
  have hkind {x : Artifact} (hx : x ∈ ofKind kind live) : x.kind = kind :=
    beq_iff_eq.1 (List.mem_filter.1 hx).2
  unfold Artifact.path at hab
  rw [hkind ha, hkind hb] at hab
  exact key_lt_of_path_lt hab

theorem Holds.mem_ofKind (h : s.Holds limit past live) (kind : ArtifactKind) (a : Artifact) :
    a ∈ ofKind kind live ↔ lastPut? limit kind a.key past = some a := by
  rw [ofKind, List.mem_filter, h.mem a, beq_iff_eq]
  constructor
  · rintro ⟨hlast, rfl⟩
    exact hlast
  · intro hlast
    obtain ⟨rfl, -⟩ := kind_key_of_lastPut? hlast
    exact ⟨hlast, rfl⟩

theorem Holds.list_eq (h : s.Holds limit past live) (kind : ArtifactKind) :
    s.list kind
      = (ofKind kind live).mapM fun a => a.reread.mapError (.undecodable a.path) := by
  have hkind : ((fun e : String × String => (pathOfKind kind).toList.isPrefixOf e.1.toList) ∘ entry)
      = fun a => a.kind == kind := funext (isPrefixOf_path kind)
  unfold list
  rw [h.entries_eq, List.filter_map, hkind, List.mapM_map]
  refine congrArg (fun read => List.mapM read _) (funext fun a => ?_)
  simp only [Function.comp_apply, entry, Artifact.reread]
  generalize Artifact.decode a.encode = result
  cases result <;> rfl

/-- Changes of one kind do not come up under another. -/
theorem lastPut?_apart {c : Change} {kind : ArtifactKind} (h : c.kind ≠ kind) (key : String) :
    lastPut? limit kind key (c :: past) = lastPut? limit kind key past := by
  by_cases hfits : c.Fits limit
  · cases c with
    | put now a => rw [lastPut?_put hfits, if_neg fun hsame => h hsame.1]
    | delete k x => rw [lastPut?_delete hfits, if_neg fun hsame => h hsame.1]
  · exact lastPut?_refused hfits kind key past

/-- Artifacts in order of their keys are determined by which they are. -/
theorem eq_of_mem_iff {live live' : List Artifact} (h : live.Pairwise (·.key < ·.key))
    (h' : live'.Pairwise (·.key < ·.key)) (hmem : ∀ a, a ∈ live ↔ a ∈ live') : live = live' := by
  have distinct {l : List Artifact} (hl : l.Pairwise (·.key < ·.key)) : l.Nodup := by
    refine List.Pairwise.imp (fun {a b} hab heq => ?_) hl
    rw [heq] at hab
    exact lt_irrefl _ hab
  have hperm : live.Perm live' := (List.perm_ext_iff_of_nodup (distinct h) (distinct h')).2 hmem
  exact hperm.eq_of_pairwise (fun a b _ _ hab hba => absurd hab (lt_asymm hba)) h h'

theorem list_congr {s' : Store} {past' : List Change} {live' : List Artifact}
    (h : s.Holds limit past live) (h' : s'.Holds limit past' live') (kind : ArtifactKind)
    (hsame : ∀ key, lastPut? limit kind key past = lastPut? limit kind key past') :
    s.list kind = s'.list kind := by
  have heq : ofKind kind live = ofKind kind live' := by
    refine eq_of_mem_iff (h.arranged.keys kind) (h'.arranged.keys kind) fun a => ?_
    rw [h.mem_ofKind, h'.mem_ofKind, hsame]
  rw [h.list_eq, h'.list_eq, heq]

/-! ## A map from kinds and keys -/

/-- How a store that was empty at the start answers after changes. -/
structure Faithful (limit : Option Nat) (past : List Change) (s : Store) : Prop where
  get_eq : ∀ kind key, s.get kind key =
    match lastPut? limit kind key past with
    | some a => a.reread.mapError (.unreadable key)
    | none => .error .notFound
  list_eq : ∀ kind, ∃ live : List Artifact,
    (∀ a, a ∈ live ↔ lastPut? limit kind a.key past = some a)
      ∧ live.Pairwise (·.key < ·.key)
      ∧ s.list kind = live.mapM fun a => a.reread.mapError (.undecodable a.path)
  get_portable : ∀ kind key a, lastPut? limit kind key past = some a → a.Portable →
    s.get kind key = .ok a
  list_portable : ∀ kind, (∀ a, lastPut? limit kind a.key past = some a → a.Portable) →
    ∃ live : List Artifact, (∀ a, a ∈ live ↔ lastPut? limit kind a.key past = some a)
      ∧ live.Pairwise (·.key < ·.key) ∧ s.list kind = .ok live
  refuses : ∀ c, (∃ fault, s.change c = .error fault) ↔ ¬c.Fits limit
  unkeyed : ∀ now a, a.key = "" → s.put now a = .error .emptyKey ∧ s.after [.put now a] = s
  apart : ∀ c kind, c.kind ≠ kind →
    (∀ key, (s.after [c]).get kind key = s.get kind key) ∧ (s.after [c]).list kind = s.list kind

theorem after_singleton (start : Store) (c : Change) (past : List Change) :
    (start.after past).after [c] = start.after (c :: past) := rfl

theorem mapM_eq_ok {f : Artifact → Except StoreFault Artifact} {l : List Artifact}
    (h : ∀ a ∈ l, f a = .ok a) : l.mapM f = .ok l := by
  induction l with
  | nil => rfl
  | cons a l ih =>
    rw [List.mapM_cons, h a List.mem_cons_self, ih fun b hb => h b (List.mem_cons_of_mem a hb)]
    rfl

/-- **A store is a map from kinds and keys.** However a store is changed, under a kind and a key it
has the artifact that was put last and not deleted since, as its kept form reads, and nothing if
there is none. The list of a kind is that of all such artifacts in order of their keys. If their
names are single lines, they come back as they were put; data that is not valid UTF-8 is left out. A
change is refused just when its key is empty, its path too long or its kept form too large, and what
is refused changes nothing. Changes of one kind are not seen under another. -/
theorem faithful_after (limit : Option Nat) (past : List Change) :
    Faithful limit past ((Store.mk [] limit).after past) := by
  obtain ⟨live, hlive⟩ := exists_holds limit past
  refine ⟨hlive.get_eq, fun kind => ?_, fun kind key a hlast ha => ?_, fun kind hportable => ?_,
    fun c => ?_, fun now a hkey => ?_, fun c kind hother => ?_⟩
  · exact ⟨ofKind kind live, hlive.mem_ofKind kind, hlive.arranged.keys kind, hlive.list_eq kind⟩
  · rw [hlive.get_eq, hlast]
    show a.reread.mapError _ = _
    rw [Artifact.reread, Artifact.decode_encode ha]
    rfl
  · refine ⟨ofKind kind live, hlive.mem_ofKind kind, hlive.arranged.keys kind, ?_⟩
    rw [hlive.list_eq]
    refine mapM_eq_ok fun a ha => ?_
    rw [Artifact.reread, Artifact.decode_encode (hportable a ((hlive.mem_ofKind kind a).1 ha))]
    rfl
  · have hrefused := exists_error_iff ((Store.mk [] limit).after past) c
    rwa [hlive.limit_eq] at hrefused
  · have hput : ((Store.mk [] limit).after past).put now a = .error .emptyKey := if_pos hkey
    refine ⟨hput, ?_⟩
    exact after_of_error hput
  · obtain ⟨live', hlive'⟩ := exists_holds limit (c :: past)
    rw [after_singleton]
    have hsame (key : String) :
        lastPut? limit kind key (c :: past) = lastPut? limit kind key past :=
      lastPut?_apart hother key
    refine ⟨fun key => ?_, list_congr hlive' hlive kind hsame⟩
    rw [hlive'.get_eq, hlive.get_eq, hsame]

/-! ## A line break that is lost -/

/-- A point in time. -/
def noon : Timestamp := { year := 2024, month := 3, day := 1, hour := 12 }

/-- An artifact with a line break in front of its key. -/
def broken : Artifact := ⟨"\n7", "a.dl", .yaml, noon, "t"⟩

theorem portable_trimmed : Artifact.Portable { broken with key := "7" } := by
  refine ⟨by decide, by decide, ?_⟩
  constructor <;> decide

/-- The line break ends the line of the sign for a block, so the block is the rest of the key. -/
theorem reread_broken : broken.reread = .ok { broken with key := "7" } := by
  have hscan : (Yaml.Token.scan broken.encode).2 = none
      ∧ (Yaml.Token.scan broken.encode).1.map Yaml.Token.kind
        = .streamStart :: (Artifact.toForm { broken with key := "7" }).tokens ++ [.streamEnd] := by
    decide +kernel
  have hparse : Yaml.Node.parse broken.encode
      = .ok (Artifact.toForm { broken with key := "7" }).toNode :=
    Yaml.Node.parse_of_scan portable_trimmed.carries.writable (Prod.ext rfl hscan.1) hscan.2
  unfold Artifact.reread Artifact.decode
  rw [hparse]
  simp only [portable_trimmed.decode?_toNode]

/-- An artifact that was put last comes back with another key than it was put under. -/
theorem get_broken : lastPut? none .yaml "\n7" [.put noon broken] = some broken
    ∧ (Store.after ⟨[], none⟩ [.put noon broken]).get .yaml "\n7"
      = .ok { broken with key := "7" } := by
  have hlast : lastPut? none .yaml "\n7" [.put noon broken] = some broken := by decide +kernel
  obtain ⟨live, hlive⟩ := exists_holds none [.put noon broken]
  refine ⟨hlast, ?_⟩
  rw [hlive.get_eq, hlast]
  show broken.reread.mapError _ = _
  rw [reread_broken]
  rfl

end Store

end RulePlan
