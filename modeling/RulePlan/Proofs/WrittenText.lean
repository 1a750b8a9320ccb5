import RulePlan.Proofs.WrittenForm
import RulePlan.Yaml.Node.Compose

/-!
# RulePlan.Proofs.WrittenText — a written mapping is read as its tree

A text that is one mapping is scanned from its start to its end, and the tokens make a tree. Both
follow the form that was written: the entries lead the scanner from the first line to the last, and
reading a node takes as many tokens as its form has, so that the tokens left are those of what was
written after it.

The reading has fuel for every token. That is enough: one token at least is passed between one call
and the next.
-/

namespace RulePlan.Yaml

namespace Scanner

open Form

/-- The scanner at the start of a text. -/
def start (cs : List Char) : Scanner := { cursor := { rest := cs, size := cs.length } }

/-- What has been read at the start of a text: the token for it. A key may stand there. -/
def Status.start (cs : List Char) : Status :=
  { kinds := [.streamStart]
    rest := cs, column := 0, columns := [], depth := 0, keyAllowed := true, key := .none }

/-- What has been read at the end of a mapping that is a text of its own. -/
def Status.whole (kinds : List Token.Kind) : Status :=
  { kinds
    rest := [], column := 0, columns := [0], depth := 0, keyAllowed := true, key := .optional }

theorem at_start {cs : List Char} (h : Begins cs) : At [] (.start cs) (start cs) := by
  have hstands : Stands [] (.start cs) (start cs) :=
    ⟨rfl, rfl, rfl, rfl, rfl, Nat.le_refl _, rfl, rfl, rfl, rfl,
      ⟨{}, [], tracks_none rfl rfl rfl rfl (by simp)⟩⟩
  have hat := hstands.at_spaces (n := 0) h rfl (.inr rfl)
  rwa [Status.before_eq (.inr (by simp [Status.start]))] at hat

/-- The entries of a mapping that is a text of its own are read to its end. -/
theorem leads_whole {step room : Nat} (hstep : 0 < step) (hroom : room < maxDepth)
    {entries : List (String × Form)} (hne : entries ≠ []) (hkey : ∀ e ∈ entries, IsKey e.1)
    (h : ∀ e ∈ entries, Writable room e.2) :
    Leads (.start (keyed step 0 entries))
      (.whole (.streamStart :: .mapStart :: entryTokens entries)) := by
  have hfresh : Fresh (.start (keyed step 0 entries)) :=
    ⟨by simp [Status.start], rfl, rfl, trivial, by simp [Status.start]⟩
  have hleads := leads_entries (m := 0) hne hkey (fun e he => (scans_of_writable hstep (h e he)).1)
    hfresh (by simpa [Status.start, nested] using by omega) begins_nil (Nat.le_refl 0)
    (by simp [Status.start]) rfl
  have hnested : nested (Status.start (keyed step 0 entries)).columns
      (Status.start (keyed step 0 entries)).column = [0] := rfl
  rwa [hnested, below_eq (Nat.le_refl 0)] at hleads

/-- The scan of a mapping that is a text of its own ends with it. -/
theorem run_start {cs : List Char} (hcs : Begins cs) {kinds : List Token.Kind}
    (hkinds : .streamEnd ∉ kinds) (h : Leads (.start cs) (.whole kinds)) :
    ∃ tokens, (start cs).run (16 * (cs.length + 8)) = (tokens, none)
      ∧ tokens.map Token.kind = kinds ++ [.blockEnd, .streamEnd] := by
  have hbound : kinds.length + 1 ≤ 1 + 4 * cs.length := h.bounded
  have hfuel : cs.length + (kinds.length + 1 - 0) + 3 < 16 * (cs.length + 8) := by omega
  have hfree : (Status.whole kinds).key.Free := trivial
  obtain ⟨hfault, hrun⟩ := run_of_leads rfl rfl hfree hkinds h (at_start hcs) hfuel
  refine ⟨_, Prod.ext rfl hfault, ?_⟩
  rw [List.nil_append] at hrun
  rw [hrun]
  simp [Status.whole]

end Scanner

/-! ## Whole texts -/

/-- Characters that print, on lines. -/
def Typed (cs : List Char) : Prop := ∀ c ∈ cs, c = '\n' ∨ Prints c

theorem Legible.typed {cs : List Char} (h : Legible cs) : Typed cs := fun c hc => .inr (h c hc)

theorem typed_append {a b : List Char} : Typed (a ++ b) ↔ Typed a ∧ Typed b :=
  List.forall_mem_append

theorem typed_cons {c : Char} {cs : List Char} :
    Typed (c :: cs) ↔ (c = '\n' ∨ Prints c) ∧ Typed cs :=
  List.forall_mem_cons

theorem typed_nil : Typed [] := by simp [Typed]

theorem typed_spaces (n : Nat) : Typed (List.replicate n ' ') := by
  intro c hc
  rw [List.eq_of_mem_replicate hc]
  exact .inr (by decide)

theorem Typed.isAllowed {cs : List Char} (h : Typed cs) : ∀ c ∈ cs, isAllowed c = true := by
  intro c hc
  obtain rfl | hprints := h c hc
  · decide
  · have hprintable := hprints.1
    simp only [Style.isPrintable, Bool.or_eq_true, Bool.and_eq_true, beq_iff_eq, bne_iff_ne,
      decide_eq_true_eq] at hprintable
    simp only [Yaml.isAllowed, Bool.or_eq_true, Bool.and_eq_true, beq_iff_eq, decide_eq_true_eq]
    omega

namespace Form

theorem typed_name {cs : List Char} (h : Plain.IsName cs) : Typed cs :=
  Legible.typed fun c hc => (of_isNameChar (h.chars c hc)).1

theorem typed_inlineList {items : List Form} (h : ∀ i ∈ items, IsInline i) :
    Typed (inlineList items) := by
  have hwords : Typed (List.intercalate [',', ' '] (items.map inlineText)) := by
    induction items with
    | nil => exact typed_nil
    | cons item items ih =>
      obtain ⟨hname, htext⟩ := (h item (by simp)).name
      cases items with
      | nil => simpa [htext] using typed_name hname
      | cons next items =>
        have hmore := ih fun i hi => h i (List.mem_cons_of_mem item hi)
        rw [List.map_cons] at hmore
        rw [List.map_cons, List.map_cons, List.intercalate_cons_cons, htext]
        rw [typed_append, typed_append, typed_cons, typed_cons]
        exact ⟨⟨typed_name hname, .inr (by decide), .inr (by decide), typed_nil⟩, hmore⟩
  rw [inlineList, List.cons_append, typed_cons, typed_append, typed_cons]
  exact ⟨.inr (by decide), hwords, .inr (by decide), typed_nil⟩

theorem typed_dashed {step : Nat} {items : List Form}
    (h : ∀ i ∈ items, ∀ column, Typed (afterDash step column i)) (column : Nat) :
    Typed (dashed step column items) := by
  induction items with
  | nil => exact typed_nil
  | cons item items ih =>
    have hitem := h item (by simp) (column + 2)
    have hdash : ('-' = '\n' ∨ Prints '-') ∧ (' ' = '\n' ∨ Prints ' ') := by decide
    cases items with
    | nil =>
      rw [dashed, typed_cons, typed_cons]
      exact ⟨hdash.1, hdash.2, hitem⟩
    | cons next items =>
      rw [Scanner.dashed_cons_cons, typed_cons, typed_cons, typed_append, typed_append]
      exact ⟨hdash.1, hdash.2, hitem, typed_spaces column,
        ih fun i hi => h i (List.mem_cons_of_mem item hi)⟩

theorem typed_keyed {step : Nat} {entries : List (String × Form)} (hkey : ∀ e ∈ entries, IsKey e.1)
    (h : ∀ e ∈ entries, ∀ column, Typed (afterKey step column e.2)) (column : Nat) :
    Typed (keyed step column entries) := by
  induction entries with
  | nil => exact typed_nil
  | cons entry entries ih =>
    obtain ⟨key, value⟩ := entry
    have hk : IsKey key := hkey (key, value) (by simp)
    have hname : Typed (onLine key) := by
      rw [onLine, if_pos hk.plain]
      exact typed_name hk.name
    have hvalue := h (key, value) (by simp) column
    have hcolon : ':' = '\n' ∨ Prints ':' := by decide
    cases entries with
    | nil =>
      rw [keyed, typed_append, typed_cons]
      exact ⟨hname, hcolon, hvalue⟩
    | cons e entries =>
      rw [Scanner.keyed_cons_cons, typed_append, typed_append, typed_append, typed_cons]
      exact ⟨⟨hname, hcolon, hvalue⟩, typed_spaces column,
        ih (fun e he => hkey e (List.mem_cons_of_mem _ he))
          fun e he => h e (List.mem_cons_of_mem _ he)⟩

/-- A writable form is written in characters that print. -/
theorem Writable.typed {step room : Nat} {f : Form} (h : Writable room f) :
    ∀ column, Typed (afterKey step column f) ∧ Typed (afterDash step column f) := by
  have hend : Typed ['\n'] := by simp [Typed]
  have hspace : ' ' = '\n' ∨ Prints ' ' := by decide
  induction h with
  | @text room s h =>
    have hscalar : ∀ column, Typed (scalar step column s) := by
      intro column
      obtain ⟨word, hword, hline⟩ := spells_scalar h step column
      rw [hline, typed_append]
      exact ⟨hword.legible.typed, hend⟩
    intro column
    rw [afterKey, afterDash, typed_cons]
    exact ⟨⟨hspace, hscalar _⟩, hscalar _⟩
  | @verbatim room s h =>
    intro column
    rw [afterKey, afterDash, List.cons_append, typed_cons, typed_append]
    exact ⟨⟨hspace, h.legible.typed, hend⟩, h.legible.typed, hend⟩
  | @inline room items h =>
    intro column
    rw [afterKey, afterDash, List.cons_append, typed_cons, typed_append]
    exact ⟨⟨hspace, typed_inlineList h, hend⟩, typed_inlineList h, hend⟩
  | @list room items hitem h ih =>
    have hitems := typed_dashed fun i hi column => (ih i hi column).2
    intro column
    cases items with
    | nil =>
      have hempty : Typed (inlineList []) := typed_inlineList (by simp)
      rw [afterKey, afterDash, List.cons_append, typed_cons, typed_append]
      exact ⟨⟨hspace, hempty, hend⟩, hempty, hend⟩
    | cons item items =>
      rw [afterKey, afterDash, List.cons_append, typed_cons, typed_append]
      exact ⟨⟨.inl rfl, typed_spaces _, hitems _⟩, hitems _⟩
  | @map room entries hne hkey h ih =>
    have hentries := typed_keyed hkey fun e he column => (ih e he column).1
    intro column
    obtain ⟨entry, entries, rfl⟩ := List.exists_cons_of_ne_nil hne
    rw [afterKey, afterDash, List.cons_append, typed_cons, typed_append]
    exact ⟨⟨.inl rfl, typed_spaces _, hentries _⟩, hentries _⟩

end Form

namespace Token

/-- In a text without characters that may not stand in one, all can be read. -/
theorem unreadable_eq_zero {cs : List Char} (h : ∀ c ∈ cs, isAllowed c = true) (fuel room : Nat)
    (portionStart : List Char) : unreadable fuel room portionStart cs = 0 := by
  induction fuel generalizing room portionStart cs with
  | zero => rfl
  | succ fuel ih =>
    cases cs with
    | nil => rfl
    | cons c cs =>
      rw [unreadable, if_pos (h c List.mem_cons_self)]
      split
      · exact ih h _ _
      · exact ih (fun d hd => h d (List.mem_cons_of_mem c hd)) _ _

theorem scan_eq {s : String} (h : Typed s.toList) :
    scan s = (Scanner.start s.toList).run (16 * (s.toList.length + 8)) := by
  have hmark : byteOrderMark ∉ s.toList := fun hmem => absurd (h _ hmem) (by decide)
  have hhead : (s.toList.head? == some byteOrderMark) = false := by
    rw [beq_eq_false_iff_ne]
    exact fun hhead => hmark (List.mem_of_head? hhead)
  -- a byte order mark at the start would be passed first
  unfold scan Scanner.start
  cases hs : s.toList with
  | nil => rfl
  | cons c cs =>
    rw [hs] at h hmark hhead
    have hfirst : (c == byteOrderMark) = false := by
      rw [beq_eq_false_iff_ne]
      rintro rfl
      exact hmark List.mem_cons_self
    simp only [hfirst, Bool.false_eq_true, if_false, hhead, unreadable_eq_zero h.isAllowed]

/-- **The scan of a written mapping.** The text of a writable mapping scans without a fault, and its
tokens are those of the mapping between the start and the end of the text. -/
theorem scan_render {step room : Nat} (hstep : 0 < step) (hroom : room < Scanner.maxDepth)
    {entries : List (String × Form)} (h : Form.Writable (room + 1) (.map entries)) :
    ∃ tokens, scan ((Form.map entries).render step) = (tokens, none)
      ∧ tokens.map kind = .streamStart :: (Form.map entries).tokens ++ [.streamEnd] := by
  obtain ⟨hne, hkey, hvalue⟩ : entries ≠ [] ∧ (∀ e ∈ entries, Form.IsKey e.1)
      ∧ ∀ e ∈ entries, Form.Writable room e.2 := by
    cases h with
    | map hne hkey hvalue => exact ⟨hne, hkey, hvalue⟩
  have hrender : ((Form.map entries).render step).toList = Form.keyed step 0 entries := by
    obtain ⟨entry, entries, rfl⟩ := List.exists_cons_of_ne_nil hne
    rw [Form.render, String.toList_ofList, Form.afterDash]
  have htyped : Typed (Form.keyed step 0 entries) :=
    Form.typed_keyed hkey (fun e he column => ((hvalue e he).typed column).1) 0
  have hbegins : Scanner.Begins (Form.keyed step 0 entries) := by
    have hmore : Scanner.Begins (Form.keyed step 0 entries ++ []) :=
      Scanner.begins_keyed hne hkey []
    rwa [List.append_nil] at hmore
  have hunended : .streamEnd ∉ Token.Kind.streamStart :: .mapStart :: Form.entryTokens entries := by
    simpa using Scanner.not_mem_entryTokens entries
  obtain ⟨tokens, hrun, hkinds⟩ := Scanner.run_start hbegins hunended
    (Scanner.leads_whole hstep hroom hne hkey hvalue)
  refine ⟨tokens, ?_, ?_⟩
  · rw [scan_eq (by rwa [hrender]), hrender, hrun]
  · rw [hkinds, Form.tokens]
    simp

end Token

/-! ## Trees of tokens -/

namespace Composer

open Form

/-- Tokens of these kinds are to come, and no node has a name. -/
structure Ahead (s : Composer) (kinds : List Token.Kind) : Prop where
  kinds : s.tokens.map Token.kind = kinds
  names : s.names = []

/-- A kind of token that a written node starts with. -/
inductive Opens : Token.Kind → Prop
  | scalar (plain : Bool) (text : String) : Opens (.scalar plain text)
  | brackets : Opens .bracketOpen
  | list : Opens .listStart
  | map : Opens .mapStart

section

variable {s : Composer} {k : Token.Kind} {kinds : List Token.Kind}

theorem Ahead.peek (h : Ahead s (k :: kinds)) : ∃ t, s.peek = .ok t ∧ t.kind = k := by
  obtain ⟨t, tokens, htokens, hkind, -⟩ := List.map_eq_cons_iff.1 h.kinds
  exact ⟨t, by rw [Composer.peek, htokens], hkind⟩

theorem Ahead.skip (h : Ahead s (k :: kinds)) : Ahead s.skip kinds := by
  obtain ⟨t, tokens, htokens, -, hrest⟩ := List.map_eq_cons_iff.1 h.kinds
  exact ⟨by rw [Composer.skip, htokens]; exact hrest, h.names⟩

theorem Ahead.isAt (h : Ahead s (k :: kinds)) (l : List Token.Kind) :
    s.isAt l = .ok (l.contains k) := by
  obtain ⟨t, hpeek, rfl⟩ := h.peek
  rw [Composer.isAt, hpeek]
  rfl

theorem Ahead.finish (h : Ahead s kinds) (mark : Nat) (n : Node) : Ahead (s.finish mark n) kinds :=
  ⟨h.kinds, by rw [Composer.finish, h.names]; rfl⟩

/-- A written node has neither a name nor a tag. -/
theorem Ahead.properties (h : Ahead s (k :: kinds)) (hk : Opens k) :
    s.properties = .ok ({}, s) := by
  obtain ⟨t, hpeek, hkind⟩ := h.peek
  have hanchor : s.anchor? = .ok (none, s) := by
    cases hk <;> simp [anchor?, hpeek, hkind, Except.map]
  have htag : s.tag? = .ok (none, s) := by
    cases hk <;> simp [tag?, hpeek, hkind, Except.map]
  simp [Composer.properties, hpeek, hanchor, htag, Bind.bind, Except.bind, Pure.pure, Except.pure]

theorem Ahead.node_scalar {plain : Bool} {text : String} (h : Ahead s (.scalar plain text :: kinds))
    (fuel : Nat) (inBlock flush : Bool) :
    node (fuel + 1) inBlock flush s
      = .ok (if plain then .plain text else .quoted text, s.skip) := by
  obtain ⟨t, hpeek, hkind⟩ := h.peek
  have hproperties := h.properties (.scalar plain text)
  rw [node]
  simp [hpeek, hkind, hproperties, Bind.bind, Except.bind, Pure.pure, Except.pure, scalarNode,
    Composer.bind]

theorem Ahead.node_brackets (h : Ahead s (.bracketOpen :: kinds)) (fuel : Nat) (flush : Bool) :
    ∃ start mark, node (fuel + 1) true flush s
      = (bracketItems fuel start true s.skip []).map fun (n, s) => (n, s.finish mark n) := by
  obtain ⟨t, hpeek, hkind⟩ := h.peek
  have hproperties := h.properties .brackets
  refine ⟨t.line, s.passed, ?_⟩
  rw [node]
  simp [hpeek, hkind, hproperties, Bind.bind, Except.bind, Pure.pure, Except.pure, Composer.bind,
    Except.map]

theorem Ahead.node_list (h : Ahead s (.listStart :: kinds)) (fuel : Nat) (flush : Bool) :
    ∃ start mark, node (fuel + 1) true flush s
      = (blockItems fuel start s.skip []).map fun (n, s) => (n, s.finish mark n) := by
  obtain ⟨t, hpeek, hkind⟩ := h.peek
  have hproperties := h.properties .list
  refine ⟨t.line, s.passed, ?_⟩
  rw [node]
  simp [hpeek, hkind, hproperties, Bind.bind, Except.bind, Pure.pure, Except.pure, Composer.bind,
    Except.map]

theorem Ahead.node_map (h : Ahead s (.mapStart :: kinds)) (fuel : Nat) (flush : Bool) :
    ∃ start mark, node (fuel + 1) true flush s
      = (blockEntries fuel start s.skip []).map fun (n, s) => (n, s.finish mark n) := by
  obtain ⟨t, hpeek, hkind⟩ := h.peek
  have hproperties := h.properties .map
  refine ⟨t.line, s.passed, ?_⟩
  rw [node]
  simp [hpeek, hkind, hproperties, Bind.bind, Except.bind, Pure.pure, Except.pure, Composer.bind,
    Except.map]

end

theorem Opens.not_mem {k : Token.Kind} (h : Opens k) : k ∉ afterItem ∧ k ∉ afterEntry := by
  cases h <;> simp [afterItem, afterEntry]

/-- A form is read from its tokens, in block form. -/
def Composes (f : Form) : Prop :=
  ∀ (fuel : Nat) (flush : Bool) {s : Composer} {kinds : List Token.Kind}, f.tokens.length ≤ fuel →
    Ahead s (f.tokens ++ kinds) → ∃ s', node fuel true flush s = .ok (f.toNode, s') ∧ Ahead s' kinds

theorem exists_tokens_cons (f : Form) : ∃ k rest, f.tokens = k :: rest ∧ Opens k := by
  cases f with
  | verbatim s => exact ⟨_, [], rfl, .scalar true s⟩
  | text s => exact ⟨_, [], rfl, .scalar _ s⟩
  | list inline items =>
    cases inline with
    | true => exact ⟨_, _, rfl, .brackets⟩
    | false =>
      cases items with
      | nil => exact ⟨_, _, rfl, .brackets⟩
      | cons item items => exact ⟨_, _, rfl, .list⟩
  | map entries => exact ⟨_, _, rfl, .map⟩

/-- The words after the first one of a list on one line are read up to its bracket. -/
theorem bracketItems_words {items : List Form} (hitems : ∀ i ∈ items, IsInline i) {fuel : Nat}
    (hfuel : items.length < fuel) (start : Nat) (before : List Node) {s : Composer}
    {kinds : List Token.Kind} (h : Ahead s ((items.flatMap fun i =>
      [.comma, .scalar true i.word]) ++ .bracketClose :: kinds)) :
    ∃ s', bracketItems fuel start false s before
      = .ok (.list (before.reverse ++ toNodes items), s') ∧ Ahead s' kinds := by
  obtain ⟨fuel, rfl⟩ := Nat.exists_eq_add_one_of_ne_zero (Nat.ne_of_gt (Nat.zero_lt_of_lt hfuel))
  induction items generalizing fuel s before with
  | nil =>
    have hclose : Ahead s (.bracketClose :: kinds) := h
    refine ⟨s.skip, ?_, hclose.skip⟩
    rw [bracketItems]
    simp [hclose.isAt, toNodes, Bind.bind, Except.bind, Pure.pure, Except.pure]
  | cons item items ih =>
    obtain ⟨fuel, rfl⟩ : ∃ n, fuel = n + 1 := ⟨fuel - 1, by simp at hfuel; omega⟩
    have hcomma : Ahead s (.comma :: .scalar true item.word :: ((items.flatMap fun i =>
        [.comma, .scalar true i.word]) ++ .bracketClose :: kinds)) := h
    have hword := hcomma.skip
    have hinline : item.toNode = .plain item.word := (hitems item (by simp)).toNode_eq
    obtain ⟨s', hmore, hs'⟩ := ih (fun i hi => hitems i (List.mem_cons_of_mem item hi))
      (item.toNode :: before) hword.skip fuel (by simpa using hfuel)
    refine ⟨s', ?_, hs'⟩
    rw [hinline] at hmore
    rw [bracketItems]
    simp [hcomma.isAt, hword.isAt, hword.node_scalar, hmore, toNodes, hinline, Bind.bind,
      Except.bind]

/-- The items of a list are read one after the other. -/
theorem blockItems_tokens {items : List Form} (hitems : ∀ i ∈ items, Composes i) {fuel : Nat}
    (hfuel : (itemTokens items).length < fuel) (start : Nat) (before : List Node) {s : Composer}
    {kinds : List Token.Kind} (h : Ahead s (itemTokens items ++ .blockEnd :: kinds)) :
    ∃ s', blockItems fuel start s before = .ok (.list (before.reverse ++ toNodes items), s')
      ∧ Ahead s' kinds := by
  obtain ⟨fuel, rfl⟩ := Nat.exists_eq_add_one_of_ne_zero (Nat.ne_of_gt (Nat.zero_lt_of_lt hfuel))
  induction items generalizing fuel s before with
  | nil =>
    have hend : Ahead s (.blockEnd :: kinds) := h
    refine ⟨s.skip, ?_, hend.skip⟩
    rw [blockItems]
    simp [hend.isAt, toNodes, Bind.bind, Except.bind, Pure.pure, Except.pure]
  | cons item items ih =>
    simp only [itemTokens, List.length_cons, List.length_append] at hfuel
    have hdash : Ahead s (.dash :: (item.tokens ++ (itemTokens items ++ .blockEnd :: kinds))) := by
      simpa [itemTokens] using h
    obtain ⟨k, rest, htokens, hk⟩ := exists_tokens_cons item
    have hpos : 0 < item.tokens.length := by simp [htokens]
    have hnext : Ahead s.skip (k :: (rest ++ (itemTokens items ++ .blockEnd :: kinds))) := by
      simpa [htokens] using hdash.skip
    -- the dash takes one unit of fuel; the item has a token at least, so it gets another
    obtain ⟨fuel, rfl⟩ : ∃ n, fuel = n + 1 := ⟨fuel - 1, by omega⟩
    obtain ⟨s', hnode, hs'⟩ := hitems item (by simp) (fuel + 1) false (by omega) hdash.skip
    obtain ⟨s'', hmore, hs''⟩ := ih (fun i hi => hitems i (List.mem_cons_of_mem item hi))
      (item.toNode :: before) hs' fuel (by omega)
    refine ⟨s'', ?_, hs''⟩
    rw [blockItems]
    simp [hdash.isAt, hnext.isAt, hk.not_mem.1, hnode, hmore, toNodes, Bind.bind, Except.bind]

/-- The entries of a mapping are read one after the other. -/
theorem blockEntries_tokens {entries : List (String × Form)} (hvalue : ∀ e ∈ entries, Composes e.2)
    {fuel : Nat} (hfuel : (entryTokens entries).length < fuel) (start : Nat)
    (before : List (Node × Node)) {s : Composer} {kinds : List Token.Kind}
    (h : Ahead s (entryTokens entries ++ .blockEnd :: kinds)) :
    ∃ s', blockEntries fuel start s before = .ok (.map (before.reverse ++ toEntries entries), s')
      ∧ Ahead s' kinds := by
  obtain ⟨fuel, rfl⟩ := Nat.exists_eq_add_one_of_ne_zero (Nat.ne_of_gt (Nat.zero_lt_of_lt hfuel))
  induction entries generalizing fuel s before with
  | nil =>
    have hend : Ahead s (.blockEnd :: kinds) := h
    refine ⟨s.skip, ?_, hend.skip⟩
    rw [blockEntries]
    simp [hend.isAt, toEntries, Bind.bind, Except.bind, Pure.pure, Except.pure]
  | cons entry entries ih =>
    obtain ⟨key, value⟩ := entry
    simp only [entryTokens, List.length_cons, List.length_append] at hfuel
    have hkey : Ahead s (.key :: .scalar true key :: .value ::
        (value.tokens ++ (entryTokens entries ++ .blockEnd :: kinds))) := by
      simpa [entryTokens] using h
    have hname := hkey.skip
    have hcolon := hname.skip
    obtain ⟨k, rest, htokens, hk⟩ := exists_tokens_cons value
    have hnext : Ahead s.skip.skip.skip
        (k :: (rest ++ (entryTokens entries ++ .blockEnd :: kinds))) := by
      simpa [htokens] using hcolon.skip
    -- key, name and colon leave fuel for both parts of the entry
    obtain ⟨fuel, rfl⟩ : ∃ n, fuel = n + 2 := ⟨fuel - 2, by omega⟩
    have hnamePart : blockPart (fuel + 2) s.skip = .ok (.plain key, s.skip.skip) := by
      rw [blockPart, hname.node_scalar]
      simp [hname.isAt, afterEntry, Bind.bind, Except.bind]
    obtain ⟨s', hnode, hs'⟩ := hvalue (key, value) (by simp) (fuel + 1) true (by simp; omega)
      hcolon.skip
    have hvaluePart : blockPart (fuel + 2) s.skip.skip.skip = .ok (value.toNode, s') := by
      rw [blockPart]
      simp [hnext.isAt, hk.not_mem.2, hnode, Bind.bind, Except.bind]
    obtain ⟨s'', hmore, hs''⟩ := ih (fun e he => hvalue e (List.mem_cons_of_mem _ he))
      ((.plain key, value.toNode) :: before) hs' (fuel + 1) (by omega)
    refine ⟨s'', ?_, hs''⟩
    rw [blockEntries]
    simp [hkey.isAt, hcolon.isAt, hnamePart, hvaluePart, hmore, toEntries, Bind.bind, Except.bind]

/-- Words with commas between them, as one word and then each with its comma before it. -/
theorem intersperse_words (item : Form) (items : List Form) :
    ((item :: items).map fun i => Token.Kind.scalar true i.word).intersperse .comma
      = .scalar true item.word :: items.flatMap fun i => [.comma, .scalar true i.word] := by
  induction items generalizing item with
  | nil => rfl
  | cons next items ih =>
    have hmore := ih next
    rw [List.map_cons] at hmore
    rw [List.map_cons, List.map_cons, List.intersperse_cons_cons, hmore]
    rfl

/-- The words of a list on one line are read up to its bracket. -/
theorem bracketItems_tokens {items : List Form} (hitems : ∀ i ∈ items, IsInline i) {fuel : Nat}
    (hfuel : items.length < fuel) (start : Nat) {s : Composer} {kinds : List Token.Kind}
    (h : Ahead s ((items.map fun i => Token.Kind.scalar true i.word).intersperse .comma
      ++ .bracketClose :: kinds)) :
    ∃ s', bracketItems fuel start true s [] = .ok (.list (toNodes items), s') ∧ Ahead s' kinds := by
  obtain ⟨fuel, rfl⟩ := Nat.exists_eq_add_one_of_ne_zero (Nat.ne_of_gt (Nat.zero_lt_of_lt hfuel))
  cases items with
  | nil =>
    have hclose : Ahead s (.bracketClose :: kinds) := h
    refine ⟨s.skip, ?_, hclose.skip⟩
    rw [bracketItems]
    simp [hclose.isAt, toNodes, Bind.bind, Except.bind, Pure.pure, Except.pure]
  | cons item items =>
    -- the first word has no comma before it, so it is read apart from the others
    rw [intersperse_words] at h
    have hword : Ahead s (.scalar true item.word :: ((items.flatMap fun i =>
      [.comma, .scalar true i.word]) ++ .bracketClose :: kinds)) := h
    have hinline : item.toNode = .plain item.word := (hitems item (by simp)).toNode_eq
    obtain ⟨fuel, rfl⟩ : ∃ n, fuel = n + 1 := ⟨fuel - 1, by simp at hfuel; omega⟩
    obtain ⟨s', hmore, hs'⟩ := bracketItems_words
      (fun i hi => hitems i (List.mem_cons_of_mem item hi))
      (by simpa using hfuel : items.length < fuel + 1) start [item.toNode] hword.skip
    refine ⟨s', ?_, hs'⟩
    rw [hinline] at hmore
    rw [bracketItems]
    simp [hword.isAt, hword.node_scalar, hmore, toNodes, hinline, Bind.bind, Except.bind]

/-- A list on one line is read from its tokens. -/
theorem composes_brackets {f : Form} {items : List Form} (hitems : ∀ i ∈ items, IsInline i)
    (htokens : f.tokens = bracketTokens items) (hnode : f.toNode = .list (toNodes items)) :
    Composes f := by
  intro fuel flush s kinds hfuel h
  rw [htokens] at hfuel h
  have hopen : Ahead s (.bracketOpen :: ((items.map fun i =>
      Token.Kind.scalar true i.word).intersperse .comma ++ .bracketClose :: kinds)) := by
    simpa [bracketTokens] using h
  have hlength : items.length + 1 < fuel := by
    simp only [bracketTokens, List.length_cons, List.length_append, List.length_nil,
      List.length_intersperse, List.length_map] at hfuel
    omega
  obtain ⟨fuel, rfl⟩ := Nat.exists_eq_add_one_of_ne_zero (Nat.ne_of_gt (Nat.zero_lt_of_lt hlength))
  obtain ⟨start, mark, hbrackets⟩ := hopen.node_brackets fuel flush
  obtain ⟨s', hread, hs'⟩ :=
    bracketItems_tokens hitems (Nat.lt_of_succ_lt_succ hlength) start hopen.skip
  refine ⟨s'.finish mark (.list (toNodes items)), ?_, hs'.finish _ _⟩
  rw [hbrackets, hread, hnode]
  rfl

/-- **Written forms compose.** A writable form is read from its tokens. -/
theorem composes_of_writable {room : Nat} {f : Form} (h : Writable room f) : Composes f := by
  induction h with
  | @text room text h =>
    intro fuel flush s kinds hfuel hs
    obtain ⟨fuel, rfl⟩ := Nat.exists_eq_add_one_of_ne_zero (Nat.ne_of_gt hfuel)
    have hscalar : Ahead s (.scalar (Style.ofText text = .plain) text :: kinds) := hs
    refine ⟨s.skip, ?_, hscalar.skip⟩
    rw [hscalar.node_scalar, toNode]
    simp
  | @verbatim room text h =>
    intro fuel flush s kinds hfuel hs
    obtain ⟨fuel, rfl⟩ := Nat.exists_eq_add_one_of_ne_zero (Nat.ne_of_gt hfuel)
    have hscalar : Ahead s (.scalar true text :: kinds) := hs
    exact ⟨s.skip, hscalar.node_scalar fuel true flush, hscalar.skip⟩
  | @inline room items h => exact composes_brackets h rfl rfl
  | @list room items hitem h ih =>
    cases items with
    | nil => exact composes_brackets (by simp) rfl rfl
    | cons item items =>
      intro fuel flush s kinds hfuel hs
      obtain ⟨fuel, rfl⟩ := Nat.exists_eq_add_one_of_ne_zero
        (Nat.ne_of_gt (Nat.lt_of_lt_of_le (Nat.succ_pos _) hfuel))
      have hlist : Ahead s (.listStart :: (itemTokens (item :: items) ++ .blockEnd :: kinds)) := by
        simpa [Form.tokens] using hs
      obtain ⟨start, mark, hnode⟩ := hlist.node_list fuel flush
      obtain ⟨s', hread, hs'⟩ := blockItems_tokens ih
        (by simpa [Form.tokens, Nat.succ_le_iff] using hfuel) start [] hlist.skip
      refine ⟨s'.finish mark (.list (toNodes (item :: items))), ?_, hs'.finish _ _⟩
      rw [hnode, hread]
      rfl
  | @map room entries hne hkey h ih =>
    intro fuel flush s kinds hfuel hs
    obtain ⟨fuel, rfl⟩ := Nat.exists_eq_add_one_of_ne_zero
      (Nat.ne_of_gt (Nat.lt_of_lt_of_le (Nat.succ_pos _) hfuel))
    have hmap : Ahead s (.mapStart :: (entryTokens entries ++ .blockEnd :: kinds)) := by
      simpa [Form.tokens] using hs
    obtain ⟨start, mark, hnode⟩ := hmap.node_map fuel flush
    obtain ⟨s', hread, hs'⟩ := blockEntries_tokens ih
      (by simpa [Form.tokens, Nat.succ_le_iff] using hfuel) start [] hmap.skip
    refine ⟨s'.finish mark (.map (toEntries entries)), ?_, hs'.finish _ _⟩
    rw [hnode, hread]
    rfl

/-- A document that is one mapping is read from its tokens. -/
theorem document_tokens {room : Nat} {entries : List (String × Form)}
    (h : Writable room (.map entries)) {fuel : Nat}
    (hfuel : (Form.map entries).tokens.length ≤ fuel) {s : Composer}
    (hs : Ahead s (.streamStart :: (Form.map entries).tokens ++ [.streamEnd])) :
    s.document fuel = .ok (Form.map entries).toNode := by
  have hskip : Ahead s.skip ((Form.map entries).tokens ++ [.streamEnd]) := hs.skip
  have hmap : Ahead s.skip (.mapStart :: (entryTokens entries ++ [.blockEnd] ++ [.streamEnd])) :=
    hskip
  obtain ⟨t, hpeek, hkind⟩ := hmap.peek
  obtain ⟨fuel, rfl⟩ := Nat.exists_eq_add_one_of_ne_zero
    (Nat.ne_of_gt (Nat.lt_of_lt_of_le (Nat.succ_pos _) hfuel))
  obtain ⟨s', hnode, hs'⟩ := composes_of_writable h (fuel + 1) false hfuel
    (s := { s.skip with handles := s.skip.handles ++ commonHandles }) ⟨hskip.kinds, hskip.names⟩
  obtain ⟨last, hlast, -⟩ := hs'.peek
  -- a text without directives still gets the common handles
  have hdirectives : directives (fuel + 1) false s.skip
      = .ok { s.skip with handles := s.skip.handles ++ commonHandles } := by
    rw [directives, hpeek]
    simp [hkind, Bind.bind, Except.bind, Pure.pure, Except.pure]
  rw [document]
  simp [hpeek, hkind, endsDocument, hdirectives, hnode, hlast, Bind.bind, Except.bind, Pure.pure,
    Except.pure]

end Composer

/-- A text with the tokens of a mapping is read as its tree. -/
theorem Node.parse_of_scan {room : Nat} {entries : List (String × Form)}
    (h : Form.Writable room (.map entries)) {s : String} {tokens : List Token}
    (hscan : Token.scan s = (tokens, none))
    (hkinds : tokens.map Token.kind = .streamStart :: (Form.map entries).tokens ++ [.streamEnd]) :
    Node.parse s = .ok (Form.map entries).toNode := by
  have hlength := congrArg List.length hkinds
  simp only [List.length_map, List.length_append, List.length_cons, List.length_nil] at hlength
  rw [Node.parse, hscan]
  exact Composer.document_tokens h (by omega) ⟨hkinds, rfl⟩

/-- **Written mappings are read.** The text of a writable mapping is read as its tree. -/
theorem Node.parse_writable {step room : Nat} (hstep : 0 < step) (hroom : room < Scanner.maxDepth)
    {entries : List (String × Form)} (h : Form.Writable (room + 1) (.map entries)) :
    Node.parse ((Form.map entries).render step) = .ok (Form.map entries).toNode := by
  obtain ⟨tokens, hscan, hkinds⟩ := Token.scan_render hstep hroom h
  exact parse_of_scan h hscan hkinds

end RulePlan.Yaml
