import RulePlan.Command.Run
import RulePlan.Proofs.KeptArtifacts
import RulePlan.Proofs.LegibleRule
import RulePlan.Proofs.RequestKey

/-!
# RulePlan.Proofs.CacheTransparency — plans and artifacts that are kept are those that were asked for

A cache answers by the digest of a request's text, and so does the store of artifacts. What either
of them holds was put there by an earlier request with the same digest; if that request compiles
like the present one, answering from the cache is answering as without it. An artifact is kept as
structured text, which has to be read back; under a file name of one line it comes back as it was
put, and the text that is shown is the one that compiling would have shown. Plain requests compile
alike as soon as their texts agree. With a semicolon in the name of an output, two requests that do
not compile alike can have one text, and the second is then answered with the plan of the first.
-/

namespace RulePlan

variable {rs : List Request} {r : Request}

/-- Requests with the same key have the same result. -/
def Request.KeyedApart (rs : List Request) : Prop :=
  ∀ r ∈ rs, ∀ r' ∈ rs, r.key = r'.key → (Plan.compile r).result = (Plan.compile r').result

/-! ## The cache -/

namespace Cache

/-- Every entry is the plan of one of some requests, under the key of that request. -/
def Reflects (rs : List Request) (c : Cache Plan) : Prop :=
  ∀ e ∈ c.entries, ∃ r ∈ rs, e.key = r.key ∧ (Plan.compile r).result = .ok e.value

variable {c : Cache Plan}

theorem reflects_create (rs : List Request) (capacity maxAge : Int) :
    (create capacity maxAge).Reflects rs := by
  intro e he
  exact absurd he List.not_mem_nil

theorem Reflects.others (h : c.Reflects rs) (key : String) :
    ∀ e ∈ c.others key, ∃ r ∈ rs, e.key = r.key ∧ (Plan.compile r).result = .ok e.value :=
  fun e he => h e (List.mem_filter.1 he).1

/-- Looking a key up only drops or moves entries. -/
theorem Reflects.get (h : c.Reflects rs) (now : Int) (key : String) :
    (c.get now key).1.Reflects rs := by
  unfold Cache.get
  split
  case h_1 => exact h
  case h_2 e hfind =>
    split
    · exact h.others key
    · intro e' he'
      rcases List.mem_cons.1 he' with rfl | he'
      · exact h e' (List.mem_of_find?_eq_some hfind)
      · exact h.others key e' he'

/-- What is found under a key is the plan of a request with that key. -/
theorem Reflects.exists_of_get (h : c.Reflects rs) {now : Int} {key : String} {plan : Plan}
    (hget : (c.get now key).2 = some plan) :
    ∃ r ∈ rs, key = r.key ∧ (Plan.compile r).result = .ok plan := by
  unfold Cache.get at hget
  split at hget
  case h_1 => cases hget
  case h_2 e hfind =>
    split at hget
    · cases hget
    · have hkey : e.key = key := by simpa using List.find?_some hfind
      obtain ⟨r, hr, her, hplan⟩ := h e (List.mem_of_find?_eq_some hfind)
      cases hget
      exact ⟨r, hr, hkey ▸ her, hplan⟩

theorem Reflects.set (h : c.Reflects rs) (hr : r ∈ rs) {plan : Plan}
    (hplan : (Plan.compile r).result = .ok plan) (now : Int) :
    (c.set now r.key plan).Reflects rs := by
  intro e he
  rcases List.mem_cons.1 (List.mem_of_mem_take he) with rfl | he
  · exact ⟨r, hr, rfl, hplan⟩
  · exact h.others r.key e he

theorem create_pos (capacity maxAge : Int) :
    0 < (create capacity maxAge : Cache α).capacity ∧
      0 < (create capacity maxAge : Cache α).maxAge := by
  simp only [create, defaultCapacity, defaultMaxAge]
  constructor <;> split <;> omega

/-- A value is found again until it is too old. -/
theorem get_set {α : Type} {c : Cache α} (hcapacity : 0 < c.capacity) (key : String) (value : α)
    {now later : Int} (hage : later - now ≤ c.maxAge) :
    ((c.set now key value).get later key).2 = some value := by
  obtain ⟨n, hn⟩ := Nat.exists_eq_add_one.2 hcapacity
  have hentries : (c.set now key value).entries = ⟨key, value, now⟩ :: (c.others key).take n := by
    rw [set, hn, List.take_succ_cons]
  have hyoung : ¬ (c.set now key value).maxAge < later - now := Int.not_lt.2 hage
  simp [get, hentries, hyoung]

end Cache

namespace Plan

theorem key_file_of_compile {plan : Plan} (h : (compile r).result = .ok plan) :
    plan.key = r.key ∧ plan.file = r.file := by
  obtain ⟨p, strata, passes, plans, -, -, -, -, rfl⟩ := compile_eq_ok_iff.1 h
  exact ⟨rfl, rfl⟩

variable {cache : Cache Plan} {readAt : Int}

theorem compileCached_hit {plan : Plan} (hget : (cache.get readAt r.key).2 = some plan)
    (storeAt : Int) :
    (compileCached cache readAt storeAt r).2.result = .ok plan ∧
      (compileCached cache readAt storeAt r).1 = (cache.get readAt r.key).1 := by
  unfold compileCached
  rcases hfound : cache.get readAt r.key with ⟨left, found⟩
  obtain rfl : found = some plan := by rw [hfound] at hget; exact hget
  exact ⟨rfl, rfl⟩

theorem compileCached_miss (hget : (cache.get readAt r.key).2 = none) (storeAt : Int) :
    (compileCached cache readAt storeAt r).2.result = (compile r).result ∧
      (compileCached cache readAt storeAt r).1 =
        match (compile r).result with
        | .ok plan => (cache.get readAt r.key).1.set storeAt r.key plan
        | .error _ => (cache.get readAt r.key).1 := by
  unfold compileCached
  rcases hfound : cache.get readAt r.key with ⟨left, found⟩
  obtain rfl : found = none := by rw [hfound] at hget; exact hget
  cases hresult : (compile r).result with
  | error ds => simp [Traced.after, hresult]
  | ok plan => simp [Traced.after, hresult]

/-- Compiling through a cache gives the result without it, and leaves a cache of the same kind. -/
theorem compileCached_reflects (hapart : Request.KeyedApart rs) (hr : r ∈ rs)
    (h : cache.Reflects rs) (readAt storeAt : Int) :
    (compileCached cache readAt storeAt r).2.result = (compile r).result ∧
      (compileCached cache readAt storeAt r).1.Reflects rs := by
  have hleft := h.get readAt r.key
  cases hget : (cache.get readAt r.key).2 with
  | some plan =>
    obtain ⟨hresult, hcache⟩ := compileCached_hit hget storeAt
    obtain ⟨r', hr', hkey, hplan⟩ := h.exists_of_get hget
    rw [hresult, hcache, hapart r hr r' hr' hkey, hplan]
    exact ⟨rfl, hleft⟩
  | none =>
    obtain ⟨hresult, hcache⟩ := compileCached_miss hget storeAt
    rw [hresult, hcache]
    refine ⟨rfl, ?_⟩
    cases hplan : (compile r).result with
    | error ds => exact hleft
    | ok plan => exact hleft.set hr hplan storeAt

end Plan

/-! ## The store -/

namespace ArtifactKind

theorem label_cases (k : ArtifactKind) : k = yaml ∨ k = table ∨
    k.label.toList = "kind(".toList ++ (Text.Decimal.digits k.code.toNat ++ [')']) := by
  by_cases hyaml : k = yaml
  · exact .inl hyaml
  · by_cases htable : k = table
    · exact .inr (.inl htable)
    · right; right
      simp [label, hyaml, htable, Grammar.toList_ofNat]

theorem label_injective : Function.Injective label := by
  intro j k h
  have htext := congrArg String.toList h
  -- The names of the two renderings do not start as those of other codes do.
  have yaml_apart : ∀ ds : List Char, yaml.label.toList ≠ "kind(".toList ++ ds :=
    fun ds heq => absurd (congrArg List.head? heq) (by simp; decide)
  have table_apart : ∀ ds : List Char, table.label.toList ≠ "kind(".toList ++ ds :=
    fun ds heq => absurd (congrArg List.head? heq) (by simp; decide)
  rcases label_cases j with rfl | rfl | hj
  · rcases label_cases k with rfl | rfl | hk
    · rfl
    · exact absurd h (by decide)
    · exact absurd (htext.trans hk) (yaml_apart _)
  · rcases label_cases k with rfl | rfl | hk
    · exact absurd h (by decide)
    · rfl
    · exact absurd (htext.trans hk) (table_apart _)
  · rcases label_cases k with rfl | rfl | hk
    · exact absurd (htext.symm.trans hj) (yaml_apart _)
    · exact absurd (htext.symm.trans hj) (table_apart _)
    · have hdigits : Text.Decimal.digits j.code.toNat = Text.Decimal.digits k.code.toNat := by
        rw [hj, hk] at htext
        exact List.append_inj_left' (List.append_cancel_left htext) rfl
      have hcode : j.code = k.code := UInt8.toNat_inj.1 (Text.Decimal.eq_of_digits hdigits)
      cases j
      cases k
      exact congrArg mk hcode

theorem slash_not_mem_label (k : ArtifactKind) : '/' ∉ k.label.toList := by
  rcases label_cases k with rfl | rfl | hk
  · decide
  · decide
  · rw [hk]
    intro hmem
    rcases List.mem_append.1 hmem with hmem | hmem
    · exact absurd hmem (by decide)
    · rcases List.mem_append.1 hmem with hmem | hmem
      · exact absurd (Grammar.isDigit_of_mem_digits '/' hmem) (by decide)
      · exact absurd hmem (by decide)

end ArtifactKind

namespace Store

/-- A path names one kind and one key. -/
theorem path_inj {k k' : ArtifactKind} {key key' : String} (h : path k key = path k' key') :
    k = k' ∧ key = key' := by
  have htext := congrArg String.toList h
  simp only [path, pathOfKind, String.toList_append, List.append_assoc] at htext
  obtain ⟨hlabel, hkey⟩ := Text.eq_of_append_mark (ArtifactKind.slash_not_mem_label k)
    (ArtifactKind.slash_not_mem_label k') (List.append_cancel_left htext)
  exact ⟨ArtifactKind.label_injective (String.toList_inj.1 hlabel), String.toList_inj.1 hkey⟩

/-- Every kept value is a rendering of the plan of one of some requests, at its path and with a
proper time. -/
def Reflects (rs : List Request) (s : Store) : Prop :=
  ∀ e ∈ s.entries, ∃ r ∈ rs, ∃ plan, (Plan.compile r).result = .ok plan ∧ ∃ kind created,
    Timestamp.Proper created ∧ e = (path kind plan.key,
      Artifact.encode ⟨plan.key, plan.file, kind, created, Command.renderPlan kind plan⟩)

theorem reflects_empty (rs : List Request) (limit : Option Nat) :
    (Store.mk [] limit).Reflects rs := by
  intro e he
  exact absurd he List.not_mem_nil

theorem mem_insert {place value : String} {entries : List (String × String)}
    {e : String × String} (h : e ∈ insert place value entries) :
    e = (place, value) ∨ e ∈ entries := by
  induction entries with
  | nil => exact .inl (List.mem_singleton.1 h)
  | cons x rest ih =>
    unfold insert at h
    split at h
    · exact List.mem_cons.1 h
    · split at h
      · rcases List.mem_cons.1 h with h | h
        · exact .inl h
        · exact .inr (List.mem_cons_of_mem x h)
      · rcases List.mem_cons.1 h with h | h
        · exact .inr (h ▸ List.mem_cons_self)
        · exact (ih h).imp_right (List.mem_cons_of_mem x)

/-- Keeping an artifact without a time adds nothing but its kept form, with the present time. -/
theorem entries_of_put {s s' : Store} {now : Timestamp} {a : Artifact}
    (h : s.put now a = .ok s') (hundated : a.created.isZero = true) : ∀ e ∈ s'.entries,
    e = (path a.kind a.key, { a with created := now }.encode) ∨ e ∈ s.entries := by
  have hstored :
      s'.entries = insert (path a.kind a.key) { a with created := now }.encode s.entries := by
    unfold put at h
    rw [if_pos hundated] at h
    grind
  intro e he
  rw [hstored] at he
  exact mem_insert he

theorem Reflects.put {s s' : Store} (h : s.Reflects rs) (hr : r ∈ rs) {plan : Plan}
    (hplan : (Plan.compile r).result = .ok plan) {kind : ArtifactKind} {now : Timestamp}
    (hnow : now.Proper)
    (hput : s.put now ⟨r.key, r.file, kind, .zero, Command.renderPlan kind plan⟩ = .ok s') :
    s'.Reflects rs := by
  intro e he
  obtain ⟨hkey, hfile⟩ := Plan.key_file_of_compile hplan
  have hundated : Timestamp.zero.isZero = true := by decide
  rcases entries_of_put hput hundated e he with rfl | he
  · exact ⟨r, hr, plan, hplan, kind, now, hnow, by rw [hkey, hfile]⟩
  · exact h e he

/-- What is read under a kind and a key was kept as a rendering of a plan with that key. -/
theorem Reflects.exists_of_get {s : Store} (h : s.Reflects rs) {kind : ArtifactKind}
    {key : String} {b : Artifact} (hget : s.get kind key = .ok b) :
    ∃ r ∈ rs, ∃ plan, (Plan.compile r).result = .ok plan ∧ key = plan.key ∧ ∃ created,
      Timestamp.Proper created ∧ Artifact.decode (Artifact.encode
        ⟨plan.key, plan.file, kind, created, Command.renderPlan kind plan⟩) = .ok b := by
  unfold Store.get at hget
  split at hget
  case h_1 => cases hget
  case h_2 value hlookup =>
    obtain ⟨before, after, hentries, -⟩ := List.lookup_eq_some_iff.1 hlookup
    have hmem : (path kind key, value) ∈ s.entries := by simp [hentries]
    obtain ⟨r, hr, plan, hplan, kind', created, hproper, hentry⟩ := h _ hmem
    obtain ⟨hpath, rfl⟩ := Prod.mk.inj hentry
    obtain ⟨rfl, hkey⟩ := path_inj hpath
    split at hget
    case h_1 b' hdecode =>
      cases hget
      exact ⟨r, hr, plan, hplan, hkey, created, hproper, hdecode⟩
    case h_2 => cases hget

end Store

/-! ## Sessions -/

/-- One compilation of a session: the request and its rendering, the times of the clock at which the
cache is read and written, the time at which an artifact is kept, and whether the cache starts anew,
as it does in a new process. -/
structure Call where
  request : Request
  kind : ArtifactKind
  readAt : Int
  storeAt : Int
  now : Timestamp
  restarts : Bool

namespace Session

open Command

/-- The results of calls that share a cache. -/
def results (cache : Cache Plan) : List Call → List (Except (List Diagnostic) Plan)
  | [] => []
  | c :: rest =>
    let compiled := Plan.compileCached cache c.readAt c.storeAt c.request
    compiled.2.result :: results compiled.1 rest

/-- The outcomes of calls that share a store, and a cache unless they start one anew. -/
def outcomes (fresh cache : Cache Plan) (store : Option Store) : List Call → List Outcome
  | [] => []
  | c :: rest =>
    let produced := produce (if c.restarts then fresh else cache) store c.readAt c.storeAt c.now
      c.request c.kind
    produced.2.2 :: outcomes fresh produced.1 produced.2.1 rest

/-- The outcome of a call alone, without a store. -/
def alone (fresh : Cache Plan) (c : Call) : Outcome :=
  (produce fresh none c.readAt c.storeAt c.now c.request c.kind).2.2

/-- A call ends as with another outcome: it fails alike, and it shows the same text, at least if the
name of its file is a single line. Under any other name it may also show what is read back from the
artifact that holds this text for its request. -/
structure EndsAs (r : Request) (kind : ArtifactKind) (o o' : Outcome) : Prop where
  fault : o.fault = o'.fault
  output : Text.IsSingleLine r.file → o.output = o'.output
  reread : o.output = o'.output ∨ ∃ created b, Timestamp.Proper created ∧
    Artifact.decode (Artifact.encode ⟨r.key, r.file, kind, created, o'.output⟩) = .ok b ∧
      o.output = b.data

/-- What a call shows, and how it fails, for each result of compiling its request. -/
def shown (kind : ArtifactKind) : Except (List Diagnostic) Plan → String × Option RunFault
  | .ok plan => (renderPlan kind plan, none)
  | .error _ => ("", some .reported)

variable {cache fresh : Cache Plan} {store : Option Store} {kind : ArtifactKind}

/-- A call for which nothing is kept compiles its request, and keeps the rendering of its plan. -/
theorem produce_unkept (hkept : (keptArtifact store r kind).1 = none) (cache : Cache Plan)
    (readAt storeAt : Int) (now : Timestamp) :
    let t := Plan.compileCached cache readAt storeAt r
    let produced := produce cache store readAt storeAt now r kind
    produced.1 = t.1 ∧ (produced.2.2.output, produced.2.2.fault) = shown kind t.2.result ∧
      produced.2.1 =
        match t.2.result with
        | .ok plan => (keep store now ⟨r.key, r.file, kind, .zero, renderPlan kind plan⟩).1
        | .error _ => store := by
  rcases hfound : keptArtifact store r kind with ⟨found, logs⟩
  obtain rfl : found = none := by rw [hfound] at hkept; exact hkept
  rcases hcompiled : Plan.compileCached cache readAt storeAt r with ⟨left, t⟩
  simp only [produce, hfound, hcompiled]
  cases t.result with
  | error ds => exact ⟨rfl, rfl, rfl⟩
  | ok plan => exact ⟨rfl, rfl, rfl⟩

/-- A call for which an artifact is kept shows its data and does nothing else. -/
theorem produce_kept {b : Artifact} (hkept : (keptArtifact store r kind).1 = some b)
    (cache : Cache Plan) (readAt storeAt : Int) (now : Timestamp) :
    let produced := produce cache store readAt storeAt now r kind
    produced.1 = cache ∧ produced.2.1 = store ∧
      produced.2.2.output = b.data ∧ produced.2.2.fault = none := by
  rcases hfound : keptArtifact store r kind with ⟨found, logs⟩
  obtain rfl : found = some b := by rw [hfound] at hkept; exact hkept
  simp only [produce, hfound]
  exact ⟨trivial, trivial, trivial, trivial⟩

theorem get_of_keptArtifact {b : Artifact} (hkept : (keptArtifact store r kind).1 = some b) :
    ∃ s ∈ store, s.get kind r.key = .ok b := by
  unfold keptArtifact at hkept
  cases store with
  | none => cases hkept
  | some s =>
    cases hget : s.get kind r.key with
    | ok a =>
      simp only [hget, Option.some.injEq] at hkept
      exact ⟨s, rfl, by rw [hget, hkept]⟩
    | error fault => cases fault <;> simp [hget] at hkept

theorem keep_reflects (hstore : ∀ s ∈ store, s.Reflects rs) (hr : r ∈ rs) {plan : Plan}
    (hplan : (Plan.compile r).result = .ok plan) (kind : ArtifactKind) {now : Timestamp}
    (hnow : now.Proper) :
    ∀ s ∈ (keep store now ⟨r.key, r.file, kind, .zero, renderPlan kind plan⟩).1,
      s.Reflects rs := by
  cases store with
  | none => exact hstore
  | some s =>
    cases hput : s.put now ⟨r.key, r.file, kind, .zero, renderPlan kind plan⟩ with
    | error fault => simpa [keep, hput] using hstore
    | ok s' => simpa [keep, hput] using (hstore s rfl).put hr hplan hnow hput

/-- What a call leaves in cache and store is the plan of its request. -/
theorem produce_reflects (hapart : Request.KeyedApart rs) (hr : r ∈ rs)
    (hcache : cache.Reflects rs) (hstore : ∀ s ∈ store, s.Reflects rs) (readAt storeAt : Int)
    {now : Timestamp} (hnow : now.Proper) (kind : ArtifactKind) :
    (produce cache store readAt storeAt now r kind).1.Reflects rs ∧
      ∀ s ∈ (produce cache store readAt storeAt now r kind).2.1, s.Reflects rs := by
  cases hkept : (keptArtifact store r kind).1 with
  | some b =>
    obtain ⟨hleft, hsame, -⟩ := produce_kept hkept cache readAt storeAt now
    rw [hleft, hsame]
    exact ⟨hcache, hstore⟩
  | none =>
    obtain ⟨hresult, hreflects⟩ :=
      Plan.compileCached_reflects hapart hr hcache readAt storeAt
    obtain ⟨hleft, -, hsame⟩ := produce_unkept hkept cache readAt storeAt now
    rw [hleft, hsame, hresult]
    refine ⟨hreflects, ?_⟩
    cases hplan : (Plan.compile r).result with
    | error ds => exact hstore
    | ok plan => exact keep_reflects hstore hr hplan kind hnow

/-- An artifact for a request is read back as it was kept, if the name of the file is one line: the
key of a request is one in any case. -/
theorem decode_kept {r : Request} (hfile : Text.IsSingleLine r.file) (kind : ArtifactKind)
    {created : Timestamp} (hcreated : created.Proper) (data : String) :
    Artifact.decode (Artifact.encode ⟨r.key, r.file, kind, created, data⟩)
      = .ok ⟨r.key, r.file, kind, created, data⟩ :=
  Artifact.decode_encode ⟨(Text.legible_hexDigest r.keyText).singleLine, hfile, hcreated⟩

/-- A call ends as it does alone, whatever the caches of both have dropped or grown too old. -/
theorem produce_endsAs (hapart : Request.KeyedApart rs) (hr : r ∈ rs)
    (hcache : cache.Reflects rs) (hfresh : fresh.Reflects rs)
    (hstore : ∀ s ∈ store, s.Reflects rs) (readAt storeAt : Int) (now : Timestamp)
    (kind : ArtifactKind) :
    EndsAs r kind (produce cache store readAt storeAt now r kind).2.2
      (produce fresh none readAt storeAt now r kind).2.2 := by
  have hnone : (keptArtifact none r kind).1 = none := rfl
  obtain ⟨-, halone, -⟩ := produce_unkept hnone fresh readAt storeAt now
  rw [(Plan.compileCached_reflects hapart hr hfresh readAt storeAt).1] at halone
  cases hkept : (keptArtifact store r kind).1 with
  | none =>
    obtain ⟨-, hshown, -⟩ := produce_unkept hkept cache readAt storeAt now
    rw [(Plan.compileCached_reflects hapart hr hcache readAt storeAt).1, ← halone] at hshown
    obtain ⟨houtput, hfault⟩ := Prod.mk.inj hshown
    exact ⟨hfault, fun _ => houtput, .inl houtput⟩
  | some b =>
    obtain ⟨-, -, houtput, hfault⟩ := produce_kept hkept cache readAt storeAt now
    obtain ⟨s, hs, hget⟩ := get_of_keptArtifact hkept
    obtain ⟨r', hr', plan, hplan', hshared, created, hproper, hdecode⟩ :=
      (hstore s hs).exists_of_get hget
    -- The plan was made for another request, but it is the plan of this one as well.
    have hplan : (Plan.compile r).result = .ok plan := by
      rw [hapart r hr r' hr' (hshared.trans (Plan.key_file_of_compile hplan').1), hplan']
    obtain ⟨hkey, hfile⟩ := Plan.key_file_of_compile hplan
    rw [hplan] at halone
    obtain ⟨houtput', hfault'⟩ := Prod.mk.inj halone
    rw [hkey, hfile, ← houtput'] at hdecode
    refine ⟨hfault.trans hfault'.symm, fun hline => ?_,
      .inr ⟨created, b, hproper, hdecode, houtput⟩⟩
    rw [houtput, ← Except.ok.inj ((decode_kept hline kind hproper _).symm.trans hdecode)]

/-! ### Whole sessions -/

theorem results_eq (hapart : Request.KeyedApart rs) (calls : List Call)
    (hcalls : ∀ c ∈ calls, c.request ∈ rs) (hcache : cache.Reflects rs) :
    results cache calls = calls.map fun c => (Plan.compile c.request).result := by
  -- From call to call only `Reflects` is known of the cache: entries may have been dropped.
  induction calls generalizing cache with
  | nil => rfl
  | cons c rest ih =>
    obtain ⟨hresult, hleft⟩ := Plan.compileCached_reflects hapart
      (hcalls c List.mem_cons_self) hcache c.readAt c.storeAt
    show _ :: results _ rest = _ :: _
    rw [hresult, ih (fun d hd => hcalls d (List.mem_cons_of_mem c hd)) hleft]

theorem outcomes_endAs (hapart : Request.KeyedApart rs) (calls : List Call)
    (hcalls : ∀ c ∈ calls, c.request ∈ rs) (hnow : ∀ c ∈ calls, c.now.Proper)
    (hfresh : fresh.Reflects rs) (hcache : cache.Reflects rs)
    (hstore : ∀ s ∈ store, s.Reflects rs) :
    List.Forall₂ (fun o c => EndsAs c.request c.kind o (alone fresh c))
      (outcomes fresh cache store calls) calls := by
  induction calls generalizing cache store with
  | nil => exact .nil
  | cons c rest ih =>
    have hused : (if c.restarts then fresh else cache).Reflects rs := by
      split
      · exact hfresh
      · exact hcache
    have hc := hcalls c List.mem_cons_self
    obtain ⟨hproper, hlater⟩ := List.forall_mem_cons.1 hnow
    obtain ⟨hleft, hkept⟩ :=
      produce_reflects hapart hc hused hstore c.readAt c.storeAt hproper c.kind
    refine .cons (produce_endsAs hapart hc hused hfresh hstore c.readAt c.storeAt c.now c.kind) ?_
    exact ih (fun d hd => hcalls d (List.mem_cons_of_mem c hd)) hlater hleft hkept

/-- **Caching goes unnoticed** in sessions of plain requests, as long as no two of their texts have
one digest, whatever the size of the cache, the age that it allows and the times of the calls.
Results are those of compiling without a cache. With a store as well, at proper times, every call
fails as it does alone, and shows the same text if the name of its file is a single line. The texts
determine what is asked for, up to the order of the outputs. -/
theorem cache_transparent (capacity maxAge : Int) (limit : Option Nat) (calls : List Call)
    (hplain : ∀ c ∈ calls, c.request.Plain) (hnow : ∀ c ∈ calls, c.now.Proper)
    (hdigest : ∀ c ∈ calls, ∀ d ∈ calls,
      c.request.key = d.request.key → c.request.keyText = d.request.keyText) :
    results (.create capacity maxAge) calls
        = calls.map (fun c => (Plan.compile c.request).result) ∧
      List.Forall₂ (fun o c => EndsAs c.request c.kind o (alone (.create capacity maxAge) c))
        (outcomes (.create capacity maxAge) (.create capacity maxAge) (some ⟨[], limit⟩) calls)
        calls ∧
      ∀ r r' : Request, r.Plain → r'.Plain → (r.keyText = r'.keyText ↔
        r.file = r'.file ∧ r.source = r'.source ∧ r.outputs.Perm r'.outputs ∧ r.mode = r'.mode) := by
  -- The one place where texts and digests matter; all else follows from the results.
  have hapart : Request.KeyedApart (calls.map Call.request) := by
    intro r hr r' hr' hkey
    obtain ⟨c, hc, rfl⟩ := List.mem_map.1 hr
    obtain ⟨d, hd, rfl⟩ := List.mem_map.1 hr'
    rw [Plan.compile_eq_of_keyText (hplain c hc) (hplain d hd) (hdigest c hc d hd hkey)]
  have hcalls : ∀ c ∈ calls, c.request ∈ calls.map Call.request :=
    fun c hc => List.mem_map_of_mem hc
  have hempty := Cache.reflects_create (calls.map Call.request) capacity maxAge
  refine ⟨results_eq hapart calls hcalls hempty, ?_, fun r r' => Request.keyText_eq_iff⟩
  refine outcomes_endAs hapart calls hcalls hnow hempty hempty ?_
  intro s hs
  obtain rfl : Store.mk [] limit = s := by simpa using hs
  exact Store.reflects_empty _ limit

/-- A request for a copied relation. -/
def copyRequest (outputs : List String) : Request where
  file := "a.dl"
  source := "a(X) :- b(X)."
  outputs := outputs
  mode := .failFast

/-- A call for that request in a running process, at a time of its clock. -/
def copyCall (outputs : List String) (time : Int) : Call where
  request := copyRequest outputs
  kind := .yaml
  readAt := time
  storeAt := time
  now := { year := 2024, month := 3, day := 1, hour := 12 }
  restarts := false

theorem keyText_copyRequest : (copyRequest ["a", "b"]).keyText
    = "FILE:a.dl;SOURCE:13:a(X) :- b(X).;OUTPUTS:a;b;MODE:fail-fast;" := by
  have hsorted : Names.sorted (copyRequest ["a", "b"]).outputs = ["a", "b"] :=
    List.mergeSort_of_pairwise (by decide)
  delta Request.keyText
  rw [hsorted]
  decide +kernel

/-- The last call finds that the plan in the cache is too old, and the artifact in the store. -/
theorem cache_transparent_copy :
    let calls := [copyCall ["a", "b"] 0, copyCall ["c"] 30, copyCall ["b", "a"] 100]
    (∀ c ∈ calls, c.request.Plain) ∧ (∀ c ∈ calls, c.now.Proper) ∧
      (∀ c ∈ calls, ∀ d ∈ calls,
        c.request.key = d.request.key → c.request.keyText = d.request.keyText) ∧
      results (.create 2 60) calls = calls.map (fun c => (Plan.compile c.request).result) ∧
      List.Forall₂ (fun o c => o.fault = (alone (.create 2 60) c).fault
          ∧ o.output = (alone (.create 2 60) c).output)
        (outcomes (.create 2 60) (.create 2 60) (some ⟨[], some 1024⟩) calls) calls := by
  intro calls
  have hplain : ∀ c ∈ calls, c.request.Plain := by decide +kernel
  have hnow : ∀ c ∈ calls, c.now.Proper := by
    have hproper : (copyCall [] 0).now.Proper := by constructor <;> decide
    intro c hc
    obtain rfl | rfl | rfl := by simpa [calls] using hc
    all_goals exact hproper
  have hsame : (copyRequest ["b", "a"]).keyText = (copyRequest ["a", "b"]).keyText :=
    (Request.keyText_eq_iff (by decide) (by decide)).2 ⟨rfl, rfl, by decide, rfl⟩
  have hkey : (copyRequest ["b", "a"]).key = (copyRequest ["a", "b"]).key := by
    rw [Request.key, hsame, Request.key]
  have hother : (copyRequest ["c"]).key ≠ (copyRequest ["a", "b"]).key := by
    rw [Request.key, Request.key, keyText_copyRequest]
    decide +kernel
  have hdigest : ∀ c ∈ calls, ∀ d ∈ calls,
      c.request.key = d.request.key → c.request.keyText = d.request.keyText := by
    simp [calls, copyCall, hsame, hkey, hother, hother.symm]
  obtain ⟨hresults, houtcomes, -⟩ :=
    cache_transparent 2 60 (some 1024) calls hplain hnow hdigest
  refine ⟨hplain, hnow, hdigest, hresults, ?_⟩
  have hlines : ∀ c ∈ calls, Text.IsSingleLine c.request.file := by decide +kernel
  have hboth := (List.forall₂_and_left calls _).2 ⟨hlines, houtcomes.flip⟩
  exact hboth.flip.imp fun _ _ h => ⟨h.2.fault, h.2.output h.1⟩

/-- A request with the key of the one before it is answered with the plan of that one. -/
theorem results_shared_key {c d : Call} {plan : Plan} (hkey : d.request.key = c.request.key)
    (hplan : (Plan.compile c.request).result = .ok plan) (hage : d.readAt ≤ c.storeAt)
    (capacity maxAge : Int) :
    results (.create capacity maxAge) [c, d] = [.ok plan, .ok plan] := by
  let fresh : Cache Plan := .create capacity maxAge
  obtain ⟨hcapacity, hmaxAge⟩ : 0 < fresh.capacity ∧ 0 < fresh.maxAge :=
    Cache.create_pos capacity maxAge
  have hmiss : fresh.get c.readAt c.request.key = ({ fresh with misses := 1 }, none) := rfl
  obtain ⟨hfirst, hleft⟩ := Plan.compileCached_miss (congrArg Prod.snd hmiss) c.storeAt
  rw [hplan, hmiss] at hleft
  have hget : (Cache.get (Plan.compileCached fresh c.readAt c.storeAt c.request).1
      d.readAt d.request.key).2 = some plan := by
    have hyoung : d.readAt - c.storeAt ≤ fresh.maxAge := by omega
    rw [hleft, hkey]
    exact Cache.get_set (c := { fresh with misses := 1 }) hcapacity c.request.key plan hyoung
  show [_, _] = _
  rw [hfirst, (Plan.compileCached_hit hget d.storeAt).1, hplan]

/-- One text for two requests, of which only the first can be compiled: the second names an output
that does not occur, and is answered with the plan of the first all the same. -/
theorem cache_answers_unknown_output :
    (copyRequest ["a", "b"]).keyText = (copyRequest ["a;b"]).keyText ∧
      (∃ ds, (Plan.compile (copyRequest ["a;b"])).result = .error ds) ∧
      ∃ plan, results (.create 2 3600000000000) [copyCall ["a", "b"] 0, copyCall ["a;b"] 0]
        = [.ok plan, .ok plan] := by
  have htext : (copyRequest ["a;b"]).keyText = (copyRequest ["a", "b"]).keyText := by
    rw [keyText_copyRequest]
    decide +kernel
  have hkey : (copyRequest ["a;b"]).key = (copyRequest ["a", "b"]).key := by
    rw [Request.key, htext, Request.key]
  have hfails : ∃ ds, (Plan.compile (copyRequest ["a;b"])).result = .error ds := by
    have hnotOk : (Plan.compile (copyRequest ["a;b"])).result.isOk = false := by decide +kernel
    cases hresult : (Plan.compile (copyRequest ["a;b"])).result with
    | error ds => exact ⟨ds, rfl⟩
    | ok plan => rw [hresult] at hnotOk; cases hnotOk
  obtain ⟨plan, hplan⟩ := Plan.compile_isOk_of_negatesLast (r := copyRequest ["a", "b"])
    (by decide +kernel)
  have hshared := results_shared_key (c := copyCall ["a", "b"] 0) (d := copyCall ["a;b"] 0)
    hkey hplan (Int.le_refl 0) 2 3600000000000
  exact ⟨htext.symm, hfails, plan, hshared⟩

end Session

end RulePlan
