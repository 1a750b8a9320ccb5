import RulePlan.FileTree
import RulePlan.Proofs.TimeScalars
import RulePlan.Proofs.WrittenText

/-!
# RulePlan.Proofs.SavedConfig — what becomes of the settings in a file

The settings of a file are read over the standard ones and then laid over the standard ones once
more. The second step takes nothing for something that was left out, so the settings of a valid file
are the settings of the run except for three that may be nothing: no name of a mode, no size and no
time to live stand for the standard ones. All other settings that are nothing are so in the standard
ones too.

A configuration that was saved is found again under the same path. Its text is read as the
configuration if its names are single lines and its numbers have 64 bits. A line break at the start
of a name is lost.
-/

namespace RulePlan

/-! ## Files that were written -/

namespace FileTree

variable {t : FileTree} {place : List String} {text : String}

theorem file?_put_self : (t.put place text).file? place = some text := by
  unfold file? put
  rw [List.lookup_cons, BEq.rfl]

theorem lookup_filter_of_ne {other : List String} (h : other ≠ place)
    (files : List (List String × String)) :
    (files.filter (·.1 != place)).lookup other = files.lookup other := by
  induction files with
  | nil => rfl
  | cons f files ih =>
    rw [List.filter_cons]
    split
    case isTrue => rw [List.lookup_cons, List.lookup_cons, ih]
    case isFalse hsame =>
      have hf : f.1 = place := by simpa using hsame
      have hne : (other == f.1) = false := by rw [hf, beq_eq_false_iff_ne]; exact h
      rw [List.lookup_cons, hne, ih]

theorem file?_put_of_ne {other : List String} (h : other ≠ place) :
    (t.put place text).file? other = t.file? other := by
  have hne : (other == place) = false := beq_eq_false_iff_ne.2 h
  unfold file? put
  rw [List.lookup_cons, hne, lookup_filter_of_ne h]

/-- Where a file is put, the directories above it stay. -/
theorem isDirectory_put {other : List String} (h : t.isDirectory other = true) :
    (t.put place text).isDirectory other = true := by
  unfold isDirectory put at *
  simp only [Bool.or_eq_true, List.any_eq_true] at h ⊢
  rcases h with h | ⟨f, hf, habove⟩
  · exact .inl h
  · right
    by_cases hplace : f.1 = place
    · exact ⟨(place, text), List.mem_cons_self, hplace ▸ habove⟩
    · exact ⟨f, List.mem_cons_of_mem _ (List.mem_filter.2 ⟨hf, by simpa using hplace⟩), habove⟩

theorem entry?_eq_directory_iff {other : List String} :
    t.entry? other = some .directory ↔ t.file? other = none ∧ t.isDirectory other = true := by
  unfold entry?
  cases t.file? other with
  | some text => simp
  | none => simp

theorem entry?_put {other : List String} (hplace : t.entry? place ≠ some .directory)
    (h : t.entry? other = some .directory) :
    FileTree.entry? (t.put place text) other = some .directory := by
  have hne : other ≠ place := by
    rintro rfl
    exact hplace h
  rw [entry?_eq_directory_iff] at h ⊢
  exact ⟨by rw [file?_put_of_ne hne, h.1], isDirectory_put h.2⟩

/-- A path leads to the same place after a file is put there. -/
theorem follow_put (hplace : t.entry? place ≠ some .directory) {parts start found : List String}
    (h : t.follow start parts = .ok found) : (t.put place text).follow start parts = .ok found := by
  induction parts generalizing start with
  | nil => exact h
  | cons part rest ih =>
    unfold follow at h ⊢
    cases hentry : t.entry? start with
    | none =>
      rw [hentry] at h
      cases h
    | some e =>
      cases e with
      | file text =>
        rw [hentry] at h
        cases h
      | directory =>
        rw [hentry] at h
        rw [entry?_put hplace hentry]
        simp only at h ⊢
        split at h
        case isTrue hdot =>
          rw [if_pos hdot]
          exact ih h
        case isFalse hdot =>
          rw [if_neg hdot]
          split at h
          case isTrue hup =>
            rw [if_pos hup]
            exact ih h
          case isFalse hup =>
            rw [if_neg hup]
            split at h
            case isTrue => cases h
            case isFalse hname =>
              rw [if_neg hname]
              exact ih h

theorem locate_put (hplace : t.entry? place ≠ some .directory) {path : String} {found : List String}
    (h : t.locate path = .ok found) : (t.put place text).locate path = .ok found := by
  unfold locate at h ⊢
  split at h
  case isTrue => cases h
  case isFalse hnul =>
    rw [if_neg hnul]
    split at h
    case isTrue => cases h
    case isFalse hempty =>
      rw [if_neg hempty]
      split at h
      case isTrue => cases h
      case isFalse hlong =>
        rw [if_neg hlong]
        exact follow_put hplace h

/-- **What is written is read.** -/
theorem read_of_write {t' : FileTree} {path : String} (h : t.write path text = (t', .ok ())) :
    t'.read path = .ok text := by
  unfold write at h
  split at h
  case h_1 => cases h
  case h_2 place hlocate =>
    split at h
    case h_1 => cases h
    case h_2 hplace =>
      obtain ⟨rfl, -⟩ := Prod.mk.inj h
      have hentry : FileTree.entry? (t.put place text) place = some (.file text) := by
        unfold entry?
        rw [file?_put_self]
      have hfind : (t.put place text).find path = .ok (.file text) := by
        rw [find, locate_put hplace hlocate]
        simp only [hentry]
      rw [read, hfind]

theorem ne_empty_of_read {path : String} (h : t.read path = .ok text) : path ≠ "" := by
  rintro rfl
  have hfind : t.find "" = .error .missing := rfl
  rw [read, hfind] at h
  cases h

end FileTree

namespace Config

open Yaml Yaml.Form

/-! ## Valid settings -/

/-- What a configuration needs to be used. -/
theorem fault?_eq_none_iff {c : Config} : c.fault? = none ↔ c.mode?.isSome ∧ 0 ≤ c.cacheSize
    ∧ 0 ≤ c.cacheTtl ∧ (c.format = "yaml" ∨ c.format = "table") ∧ "" ∉ c.outputs := by
  unfold fault?
  split_ifs with hmode hsize httl hformat houtputs
  · simp [Option.isNone_iff_eq_none.1 hmode]
  · simp only [false_iff]
    omega
  · simp only [false_iff]
    omega
  · simp only [false_iff]
    tauto
  · simp only [false_iff]
    tauto
  · have hsome : c.mode?.isSome = true := Option.isSome_iff_ne_none.2 (by simpa using hmode)
    simp only [true_iff]
    exact ⟨hsome, by omega, by omega, by tauto, houtputs⟩

theorem diagnostics_of_mode? {c : Config} (h : c.mode?.isSome) :
    c.diagnostics = "" ∨ c.diagnostics = "fail-fast" ∨ c.diagnostics = "accumulate" := by
  unfold mode? at h
  split_ifs at h with hfast haccumulate
  · rcases hfast with hnone | hfast
    · exact .inl hnone
    · exact .inr (.inl hfast)
  · exact .inr (.inr haccumulate)
  · cases h

/-! ## The text of a configuration -/

/-- Valid settings whose names are single lines and whose numbers have 64 bits. -/
structure Portable (c : Config) : Prop where
  valid : c.fault? = none
  outputs : ∀ name ∈ c.outputs, Text.IsSingleLine name
  cacheDir : Text.IsSingleLine c.cacheDir
  cacheSize : c.cacheSize < 9223372036854775808
  cacheTtl : c.cacheTtl < 9223372036854775808

theorem Portable.sizes {c : Config} (h : c.Portable) : IsSize c.cacheSize ∧ IsSize c.cacheTtl := by
  obtain ⟨-, hsize, httl, -, -⟩ := fault?_eq_none_iff.1 h.valid
  exact ⟨⟨hsize, h.cacheSize⟩, httl, h.cacheTtl⟩

theorem Portable.words {c : Config} (h : c.Portable) :
    Text.IsSingleLine c.diagnostics ∧ Text.IsSingleLine c.format := by
  obtain ⟨hmode, -, -, hformat, -⟩ := fault?_eq_none_iff.1 h.valid
  constructor
  · rcases diagnostics_of_mode? hmode with hword | hword | hword <;> rw [hword] <;> decide
  · rcases hformat with hword | hword <;> rw [hword] <;> decide

theorem carries_duration {room : Nat} {n : Int} (h : IsSize n) :
    Carries room (.verbatim (Duration.render n)) Node.intoDuration n := by
  obtain ⟨hunquoted, hplain⟩ := ofPlain_duration h.1 h.2
  refine ⟨.verbatim hunquoted, ?_⟩
  rw [toNode, Node.intoDuration, Node.intoScalar]
  refine (Direct.plain _).gives ?_
  simp only [Node.scalar?, hplain, Duration.read?_render h.1 h.2]
  exact Gives.pure _

theorem carries_bool {room : Nat} (b : Bool) : Carries room (.ofBool b) Node.intoBool b := by
  have hname : Plain.IsName (if b then "true" else "false").toList := by cases b <;> decide
  have hplain : Scalar.ofPlain (if b then "true" else "false") = .bool b := by cases b <;> rfl
  refine ⟨.verbatim (unquoted_of_isName hname), ?_⟩
  rw [ofBool, toNode, Node.intoBool, Node.intoScalar]
  refine (Direct.plain _).gives ?_
  simp only [Node.scalar?, hplain]
  exact Gives.pure _

theorem Portable.carries_compile {c : Config} (h : c.Portable) (room : Nat) (current : Config) :
    Carries (room + 2)
      (.map [("outputs", .ofTexts c.outputs), ("diagnostics", .text c.diagnostics)])
      (Node.intoRecord compileFields current)
      { current with outputs := c.outputs, diagnostics := c.diagnostics } := by
  refine carries_record ["outputs", "diagnostics"] ?_ (by simp) (by decide) (by decide +kernel)
  refine .field rfl (carries_texts h.outputs) ?_
  refine .field rfl (carries_text h.words.1) ?_
  exact .done _

theorem Portable.carries_cache {c : Config} (h : c.Portable) (room : Nat) (current : Config) :
    Carries (room + 2)
      (.map [("dir", .text c.cacheDir), ("size", .ofInt c.cacheSize),
        ("ttl", .verbatim (Duration.render c.cacheTtl))])
      (Node.intoRecord cacheFields current)
      { current with
        cacheDir := c.cacheDir
        cacheSize := c.cacheSize
        cacheTtl := c.cacheTtl } := by
  refine carries_record ["dir", "size", "ttl"] ?_ (by simp) (by decide) (by decide +kernel)
  refine .field rfl (carries_text h.cacheDir) ?_
  refine .field rfl (carries_int h.sizes.1) ?_
  refine .field rfl (carries_duration h.sizes.2) ?_
  exact .done _

theorem Portable.carries_output {c : Config} (h : c.Portable) (room : Nat) (current : Config) :
    Carries (room + 2)
      (.map [("format", .text c.format), ("verbose", .ofBool c.verbose)])
      (Node.intoRecord outputFields current)
      { current with format := c.format, verbose := c.verbose } := by
  refine carries_record ["format", "verbose"] ?_ (by simp) (by decide) (by decide +kernel)
  refine .field rfl (carries_text h.words.2) ?_
  refine .field rfl (carries_bool c.verbose) ?_
  exact .done _

theorem Portable.carries {c : Config} (h : c.Portable) :
    Carries 3 c.toForm (Node.intoRecord fields standard) c := by
  refine carries_record ["compile", "cache", "output"] ?_ (by simp) (by decide) (by decide +kernel)
  have hcompile := h.carries_compile 0
  have hcache := h.carries_cache 0
  have houtput := h.carries_output 0
  refine .set rfl (hcompile standard).writable ((hcompile _).gives.bind (Gives.pure _)) ?_
  refine .set rfl (hcache standard).writable ((hcache _).gives.bind (Gives.pure _)) ?_
  refine .set rfl (houtput standard).writable ((houtput _).gives.bind (Gives.pure _)) ?_
  exact .done _

/-- A text is read as the settings whose form it has. -/
theorem parse?_of_parse {c : Config} (h : c.Portable) {text : String}
    (hparse : Node.parse text = .ok c.toForm.toNode) : parse? text = some c := by
  obtain ⟨t, hread, -⟩ := h.carries.gives { visits := 1 } ⟨rfl, rfl⟩
  have hrun : (Node.intoRecord fields standard c.toForm.toNode).run { visits := 1 }
      = some (some c, t) := hread
  unfold parse?
  rw [hparse, Except.toOption, Option.bind_some, Node.decode?, hrun]
  rfl

/-- **Settings survive their text.** -/
theorem parse?_render {c : Config} (h : c.Portable) : parse? c.render = some c :=
  parse?_of_parse h (Node.parse_writable (by decide) (by decide) h.carries.writable)

/-! ## Settings laid over the standard ones -/

/-- Settings with the standard mode, size and time to live where they have none. -/
def filled (c : Config) : Config :=
  { c with
    diagnostics := if c.diagnostics = "" then "fail-fast" else c.diagnostics
    cacheSize := if c.cacheSize = 0 then 128 else c.cacheSize
    cacheTtl := if c.cacheTtl = 0 then 86400000000000 else c.cacheTtl }

theorem filled_eq_iff {c : Config} :
    c.filled = c ↔ c.diagnostics ≠ "" ∧ c.cacheSize ≠ 0 ∧ c.cacheTtl ≠ 0 := by
  constructor
  · intro h
    refine ⟨fun hnone => ?_, fun hnone => ?_, fun hnone => ?_⟩
    · have hsame := congrArg Config.diagnostics h
      simp [filled, hnone] at hsame
    · have hsame := congrArg Config.cacheSize h
      simp [filled, hnone] at hsame
    · have hsame := congrArg Config.cacheTtl h
      simp [filled, hnone] at hsame
  · rintro ⟨hmode, hsize, httl⟩
    simp [filled, hmode, hsize, httl]

theorem merge_standard {c : Config} (h : c.format ≠ "") : standard.merge c = c.filled := by
  have hdir : (if c.cacheDir = "" then "" else c.cacheDir) = c.cacheDir := by
    split
    case isTrue hnone => exact hnone.symm
    case isFalse => rfl
  have hmode : Mode.failFast.label = "fail-fast" := rfl
  simp [merge, standard, filled, hdir, h, hmode]

theorem fault?_filled {c : Config} (h : c.fault? = none) : c.filled.fault? = none := by
  obtain ⟨hmode, hsize, httl, hformat, houtputs⟩ := fault?_eq_none_iff.1 h
  refine fault?_eq_none_iff.2 ⟨?_, ?_, ?_, hformat, houtputs⟩
  · by_cases hnone : c.diagnostics = ""
    · have hfast : c.filled.diagnostics = Mode.failFast.label := if_pos hnone
      rw [mode?, if_pos (.inr hfast)]
      rfl
    · simpa [filled, hnone, mode?] using hmode
  · show 0 ≤ if c.cacheSize = 0 then 128 else c.cacheSize
    split <;> omega
  · show 0 ≤ if c.cacheTtl = 0 then 86400000000000 else c.cacheTtl
    split <;> omega

theorem ofLoaded_eq {text : String} {c : Config} (hparse : ofFile (.ok text) = .ok c)
    (h : c.fault? = none) : ofLoaded (some (.ok text)) = .ok c.filled := by
  obtain ⟨-, -, -, hformat, -⟩ := fault?_eq_none_iff.1 h
  have hne : c.format ≠ "" := by
    rcases hformat with hformat | hformat <;> rw [hformat] <;> decide
  unfold ofLoaded
  simp only [hparse, merge_standard hne, checked, fault?_filled h]

/-! ## Loading and saving -/

/-- How the settings in the file at a path are honoured. -/
structure Honoured (t : FileTree) (path : String) : Prop where
  loads : ∀ l, (loadFile FileTree.host path t).1 = .ok l → l.fault? = none →
    load FileTree.host path t = (.ok l.filled, t)
  same : ∀ l : Config, l.filled = l ↔ l.diagnostics ≠ "" ∧ l.cacheSize ≠ 0 ∧ l.cacheTtl ≠ 0
  saves : ∀ c, (save FileTree.host c path t).1 = .ok () → c.fault? = none →
    parse? c.render = some c →
      load FileTree.host path (save FileTree.host c path t).2
        = (.ok c.filled, (save FileTree.host c path t).2)
  survives : ∀ c : Config, c.Portable → parse? c.render = some c

theorem ofFile_of_parse? {text : String} {c : Config} (h : parse? text = some c) :
    ofFile (.ok text) = .ok c := by
  unfold ofFile
  split
  case h_1 heq => cases heq
  case h_2 heq =>
    obtain rfl := Except.ok.inj heq
    split
    case h_1 hnone =>
      rw [h] at hnone
      cases hnone
    case h_2 hsome =>
      rw [h] at hsome
      exact congrArg Except.ok (Option.some.inj hsome).symm

theorem load_of_read {t : FileTree} {path text : String} {c : Config}
    (hread : t.read path = .ok text) (hparse : parse? text = some c) (h : c.fault? = none) :
    load FileTree.host path t = (.ok c.filled, t) := by
  have hpath := FileTree.ne_empty_of_read hread
  have hload : load FileTree.host path t = (ofLoaded (some (t.read path)), t) := by
    unfold load
    rw [if_neg hpath]
    rfl
  rw [hload, hread, ofLoaded_eq (ofFile_of_parse? hparse) h]

theorem loadFile_fst (t : FileTree) (path : String) :
    (loadFile FileTree.host path t).1 = ofFile (t.read path) := rfl

theorem read_of_loadFile {t : FileTree} {path : String} {l : Config}
    (h : (loadFile FileTree.host path t).1 = .ok l) :
    ∃ text, t.read path = .ok text ∧ parse? text = some l := by
  rw [loadFile_fst] at h
  unfold ofFile at h
  split at h
  case h_1 => cases h
  case h_2 text hread =>
    split at h
    case h_1 => cases h
    case h_2 c hparse =>
      obtain rfl := Except.ok.inj h
      exact ⟨text, hread, hparse⟩

theorem bind_of_eq {α β : Type} {x : StateM FileTree α} {f : α → StateM FileTree β}
    {t t' : FileTree} {a : α} (h : x t = (a, t')) : (x >>= f) t = f a t' := by
  change f (x t).1 (x t).2 = _
  rw [h]

/-- What was saved can be read. -/
theorem read_of_save {t : FileTree} {path : String} {c : Config}
    (h : (save FileTree.host c path t).1 = .ok ()) :
    (save FileTree.host c path t).2.read path = .ok c.render := by
  rcases hmade : FileTree.host.makeDirectories (Path.parent path) t with ⟨made, t₁⟩
  rcases hwritten : FileTree.host.write path c.render t₁ with ⟨written, t₂⟩
  cases made with
  | error fault =>
    have hsave : save FileTree.host c path t = (.error (.directory fault), t₁) := bind_of_eq hmade
    rw [hsave] at h
    cases h
  | ok =>
    have hsave : save FileTree.host c path t
        = (match written with
          | .error fault => .error (.file fault)
          | .ok () => .ok (), t₂) := by
      refine (bind_of_eq hmade).trans ((bind_of_eq hwritten).trans ?_)
      cases written <;> rfl
    cases written with
    | error fault =>
      rw [hsave] at h
      cases h
    | ok =>
      rw [hsave]
      refine FileTree.read_of_write (t := t₁) ?_
      exact Prod.ext (congrArg Prod.snd hwritten) (congrArg Prod.fst hwritten)

/-- **The settings of a file are those of the run.** -/
theorem honoured (t : FileTree) (path : String) : Honoured t path := by
  refine ⟨fun l hload hvalid => ?_, fun l => filled_eq_iff, fun c hsave hvalid hparse => ?_,
    fun c hc => parse?_render hc⟩
  · obtain ⟨text, hread, hparse⟩ := read_of_loadFile hload
    exact load_of_read hread hparse hvalid
  · exact load_of_read (read_of_save hsave) hparse hvalid

/-! ## Settings that are not honoured -/

/-- A tree without files. -/
def bareTree : FileTree := { time := .zero }

theorem entry?_bareTree : bareTree.entry? [] = some .directory := rfl

theorem parts_file : Path.parts "c.yaml" = ["c.yaml"] := by
  rw [Path.parts, String.splitOn, if_neg (by decide)]
  iterate 6 rw [String.splitOnAux, if_neg (by decide +kernel), if_neg (by decide +kernel)]
  rw [String.splitOnAux, if_pos (by decide +kernel)]
  decide +kernel

theorem parts_here : Path.parts "." = ["."] := by
  rw [Path.parts, String.splitOn, if_neg (by decide)]
  rw [String.splitOnAux, if_neg (by decide +kernel), if_neg (by decide +kernel)]
  rw [String.splitOnAux, if_pos (by decide +kernel)]
  decide +kernel

theorem locate_file : bareTree.locate "c.yaml" = .ok ["c.yaml"] := by
  have hfollow : bareTree.follow [] ["c.yaml"] = .ok ["c.yaml"] := by
    rw [FileTree.follow, entry?_bareTree]
    rfl
  rw [FileTree.locate, if_neg (by decide), if_neg (by decide), if_neg (by decide +kernel),
    parts_file, if_neg (by decide)]
  exact hfollow

theorem find_here : bareTree.find "." = .ok .directory := by
  have hfollow : bareTree.follow [] ["."] = .ok [] := by
    rw [FileTree.follow, entry?_bareTree]
    rfl
  have hlocate : bareTree.locate "." = .ok [] := by
    rw [FileTree.locate, if_neg (by decide), if_neg (by decide), if_neg (by decide +kernel),
      parts_here, if_neg (by decide)]
    exact hfollow
  rw [FileTree.find, hlocate]
  simp only [entry?_bareTree]

theorem save_bareTree (c : Config) : (save FileTree.host c "c.yaml" bareTree).1 = .ok () := by
  have hparent : Path.parent "c.yaml" = "." := by
    rw [Path.parent, parts_file]
    rfl
  have hmade : FileTree.host.makeDirectories (Path.parent "c.yaml") bareTree
      = (.ok (), bareTree) := by
    show (bareTree.makeDirectories (Path.parent "c.yaml")).swap = _
    rw [hparent, FileTree.makeDirectories, FileTree.makeAbove, find_here]
    rfl
  have hwritten : FileTree.host.write "c.yaml" c.render bareTree
      = (.ok (), bareTree.put ["c.yaml"] c.render) := by
    show (bareTree.write "c.yaml" c.render).swap = _
    have hentry : bareTree.entry? ["c.yaml"] = none := rfl
    rw [FileTree.write, locate_file]
    simp only [hentry]
    rfl
  have hsave : save FileTree.host c "c.yaml" bareTree
      = (.ok (), bareTree.put ["c.yaml"] c.render) :=
    (bind_of_eq hmade).trans ((bind_of_eq hwritten).trans rfl)
  rw [hsave]

/-- Standard settings, but with no room for plans. -/
def roomless : Config := { standard with cacheSize := 0 }

/-- Standard settings with a line break at the start of a name. -/
def brokenDir : Config := { standard with cacheDir := "\n7" }

theorem portable_roomless : roomless.Portable := by
  constructor <;> decide

theorem portable_trimmedDir : Portable { brokenDir with cacheDir := "7" } := by
  constructor <;> decide

/-- The line break ends the line of the sign for a block, so the block is the rest of the name. -/
theorem parse?_brokenDir : parse? brokenDir.render = some { brokenDir with cacheDir := "7" } := by
  have hscan : (Yaml.Token.scan brokenDir.render).2 = none
      ∧ (Yaml.Token.scan brokenDir.render).1.map Yaml.Token.kind
        = .streamStart :: (toForm { brokenDir with cacheDir := "7" }).tokens ++ [.streamEnd] := by
    decide +kernel
  exact parse?_of_parse portable_trimmedDir
    (Node.parse_of_scan portable_trimmedDir.carries.writable (Prod.ext rfl hscan.1) hscan.2)

/-- A file may say that there is no room for plans, and the run has the standard room. A name that
starts with a line break is saved and found again without it. -/
theorem load_roomless_brokenDir :
    (roomless.fault? = none
      ∧ (save FileTree.host roomless "c.yaml" bareTree).1 = .ok ()
      ∧ (loadFile FileTree.host "c.yaml" (save FileTree.host roomless "c.yaml" bareTree).2).1
        = .ok roomless
      ∧ (load FileTree.host "c.yaml" (save FileTree.host roomless "c.yaml" bareTree).2).1
        = .ok standard
      ∧ standard ≠ roomless)
    ∧ brokenDir.fault? = none
      ∧ (save FileTree.host brokenDir "c.yaml" bareTree).1 = .ok ()
      ∧ (load FileTree.host "c.yaml" (save FileTree.host brokenDir "c.yaml" bareTree).2).1
        = .ok { brokenDir with cacheDir := "7" } := by
  have hroomless := read_of_save (save_bareTree roomless)
  have hbroken := read_of_save (save_bareTree brokenDir)
  have hparse := parse?_render portable_roomless
  have hfilled : roomless.filled = standard
      ∧ (filled { brokenDir with cacheDir := "7" }) = { brokenDir with cacheDir := "7" } := by
    decide
  refine ⟨⟨portable_roomless.valid, save_bareTree roomless, ?_, ?_, by decide⟩, by decide,
    save_bareTree brokenDir, ?_⟩
  · rw [loadFile_fst, hroomless]
    exact ofFile_of_parse? hparse
  · rw [load_of_read hroomless hparse portable_roomless.valid, hfilled.1]
  · rw [load_of_read hbroken parse?_brokenDir portable_trimmedDir.valid, hfilled.2]

end Config

end RulePlan
