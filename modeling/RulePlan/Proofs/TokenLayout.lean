import RulePlan.Proofs.TokenSpelling

/-!
# RulePlan.Proofs.TokenLayout — tokens and the bytes they were read from

The tokens of a byte string lie in it one after the other: white space, the bytes that spell the
first token, white space, the bytes that spell the second, and so on to the end. Each token knows
the column where its spelling starts, and no spelling could have been one byte longer. This layout
is said without the scanner. It determines the tokens: a byte string has one layout or none, so the
scanner, which always finds a layout up to some byte, succeeds exactly on the byte strings that have
one, and stops elsewhere at the byte where no layout can go on.
-/

namespace RulePlan

namespace Token

/-! ## Spellings -/

/-- The spellings of operators. -/
def operators : List String := ["=", "==", "!=", "<", "<=", ">", ">=", "+", "-", "*", "/", "%"]

/-- The values that tokens of a kind have: names and runs of digits, operators, and nothing where
the kind says it all. -/
def Kind.Admits (k : Kind) (value : String) : Prop :=
  match k with
  | .ident => value ≠ "not" ∧ IsName value.toList
  | .int => value ≠ "" ∧ ∀ d ∈ value.toList, isDigit d = true
  | .op => value ∈ operators
  | .eof | .unknown => False
  | .leftParen | .rightParen | .comma | .implies | .dot | .not => value = ""

/-- The bytes spell the token. They are its text, except that negation may also be `!`. -/
structure SpelledBy (t : Token) (spelling : List Char) : Prop where
  admits : t.kind.Admits t.value
  bytes : spelling = t.text.toList ∨ t.kind = .not ∧ spelling = ['!']

theorem wordKind_eq_ident {word : List Char} (h : word ≠ ['n', 'o', 't']) :
    wordKind word = .ident := if_neg h

/-- A spelling that ends where it stands is read as its token. -/
theorem SpelledBy.munch {t : Token} {spelling rest : List Char} (h : t.SpelledBy spelling)
    (hend : EndsBefore spelling rest) :
    munch (spelling ++ rest) = some (t.kind, spelling, rest)
      ∧ valueOf t.kind spelling = t.value := by
  obtain ⟨kind, value, line, col⟩ := t
  obtain ⟨hadmits, hbytes⟩ := h
  dsimp only at hadmits hbytes ⊢
  have hfixed : (spelling, kind) ∈ fixedSpellings →
      Token.munch (spelling ++ rest) = some (kind, spelling, rest) := fun he => munch_fixed he hend
  cases kind with
  | ident =>
    obtain ⟨hnot, c, word, hvalue, hc, hword⟩ := hadmits
    obtain rfl : spelling = value.toList := by simpa [text] using hbytes
    have hkind : wordKind (c :: word) = .ident := wordKind_eq_ident fun hword => by
      rw [← hvalue] at hword
      exact hnot (String.toList_injective hword)
    rw [hvalue] at hend ⊢
    refine ⟨by rw [munch_word hc hword hend, hkind], ?_⟩
    rw [valueOf, ← hvalue, String.ofList_toList]
  | int =>
    obtain ⟨hne, hdigits⟩ := hadmits
    obtain rfl : spelling = value.toList := by simpa [text] using hbytes
    have hnil : value.toList ≠ [] := by simpa using hne
    exact ⟨munch_digits hnil hdigits hend, String.ofList_toList⟩
  | op =>
    obtain rfl : spelling = value.toList := by simpa [text] using hbytes
    have hall : ∀ o ∈ operators, (o.toList, Kind.op) ∈ fixedSpellings := by decide
    exact ⟨hfixed (hall value hadmits), String.ofList_toList⟩
  | not =>
    obtain rfl : value = "" := hadmits
    refine ⟨?_, rfl⟩
    rcases hbytes with hbytes | ⟨-, rfl⟩
    · obtain rfl : spelling = ['n', 'o', 't'] := by simpa [text] using hbytes
      exact munch_not hend
    · exact hfixed (by decide)
  | eof | unknown => exact hadmits.elim
  | leftParen | rightParen | comma | implies | dot =>
    obtain rfl : value = "" := hadmits
    refine ⟨hfixed ?_, rfl⟩
    simp only [text, reduceCtorEq, false_and, or_false] at hbytes
    rw [hbytes]
    decide

/-- Every fixed spelling is that of a token. -/
theorem spelledBy_fixed {e : List Char × Kind} (he : e ∈ fixedSpellings) (line col : Int) :
    SpelledBy ⟨e.2, valueOf e.2 e.1, line, col⟩ e.1 := by
  have hop : ∀ e ∈ fixedSpellings, e.2 = .op → String.ofList e.1 ∈ operators := by decide
  have hbytes : ∀ e ∈ fixedSpellings, e.1 = (Token.mk e.2 (valueOf e.2 e.1) 0 0).text.toList
      ∨ e.2 = .not ∧ e.1 = ['!'] := by decide
  refine ⟨?_, hbytes e he⟩
  obtain ⟨spelling, kind⟩ := e
  cases kind with
  | op => exact hop _ he rfl
  | ident | int | eof | unknown => simp [fixedSpellings] at he
  | leftParen | rightParen | comma | implies | dot | not => rfl

/-- What is read at the front of a text spells its token. -/
theorem spelledBy_of_munch {cs spelling rest : List Char} {k : Kind}
    (h : munch cs = some (k, spelling, rest)) (line col : Int) :
    SpelledBy ⟨k, valueOf k spelling, line, col⟩ spelling := by
  rcases munch_cases h with hmem | ⟨rfl, hne, hdigits⟩ | ⟨c, word, rfl, rfl, hc, hword⟩
  · exact spelledBy_fixed hmem line col
  · exact ⟨⟨by simpa [valueOf] using hne, by simpa [valueOf] using hdigits⟩,
      .inl (String.toList_ofList).symm⟩
  · by_cases hnot : c :: word = ['n', 'o', 't']
    · have hkind : wordKind (c :: word) = .not := if_pos hnot
      rw [hkind, hnot]
      exact ⟨rfl, .inl (by simp [text])⟩
    · rw [wordKind_eq_ident hnot]
      refine ⟨⟨fun hvalue => hnot ?_, c, word, String.toList_ofList, hc, hword⟩,
        .inl (String.toList_ofList).symm⟩
      rw [← String.toList_ofList (l := c :: word)]
      exact congrArg String.toList hvalue

/-- What is read at the front of a text could not have been longer. -/
theorem endsBefore_of_munch {cs spelling rest : List Char} {k : Kind}
    (h : munch cs = some (k, spelling, rest)) : EndsBefore spelling rest := by
  intro next hnext hcontinues
  obtain ⟨r, rfl⟩ := List.head?_eq_some_iff.1 hnext
  obtain rfl := append_of_munch h
  have hstops : ∀ {p : Char → Bool} {cs : List Char}, p next = true →
      cs.dropWhile p ≠ next :: r := by
    intro p cs hp hdrop
    have := List.head?_dropWhile_not p cs
    rw [hdrop] at this
    simp [hp] at this
  rcases hcontinues with ⟨c, hc, hstart, hpart⟩ | ⟨c, hc, hdigit, hmore⟩ | ⟨hgrows, rfl⟩
  · obtain ⟨word, rfl⟩ := List.head?_eq_some_iff.1 hc
    rw [List.cons_append, munch_eq_munchWord (isNamePart_of_isNameStart hstart), munchWord,
      if_neg (not_isDigit_of_isNameStart hstart), if_pos hstart] at h
    simp only [Option.some.injEq, Prod.mk.injEq] at h
    exact hstops hpart h.2.2
  · obtain ⟨word, rfl⟩ := List.head?_eq_some_iff.1 hc
    rw [List.cons_append, munch_eq_munchWord (isNamePart_of_isDigit hdigit), munchWord,
      if_pos hdigit] at h
    simp only [Option.some.injEq, Prod.mk.injEq] at h
    exact hstops hmore h.2.2
  · -- the longer operator would have been read
    have hlonger : ∀ s ∈ growing, munch (s ++ '=' :: r) = some (.op, s ++ ['='], r) := by
      simp [growing, munch, fixedSpellings, List.isPrefixOf]
    rw [hlonger spelling hgrows] at h
    simp at h

/-! ## Where a scan stops -/

/-- The bytes other than those of names and numbers that tokens start with. -/
def signs : List Char := ['(', ')', ',', '.', ':', '!', '=', '<', '>', '+', '-', '*', '/', '%']

/-- A token may start with the byte. -/
def StartsToken (c : Char) : Prop := isNameStart c = true ∨ isDigit c = true ∨ c ∈ signs

/-- No token can be read here: the byte starts none, or it is a colon without its dash. -/
def Stuck (c : Char) (rest : List Char) : Prop :=
  ¬StartsToken c ∨ c = ':' ∧ rest.head? ≠ some '-'

/-- Why a scan stops at a byte. -/
def stuckFault (c : Char) (line : Int) (col : Nat) : LexFault :=
  if c = ':' then .loneColon line col else .unexpected c line col

theorem munchWord_eq_none_iff {c : Char} {rest : List Char} :
    munchWord (c :: rest) = none ↔ isNameStart c = false ∧ isDigit c = false := by
  rw [munchWord]
  split
  · next h => simp [h]
  · next hdigit =>
    split
    · next h => simp [h]
    · next hstart => simp [hdigit, hstart]

/-- No fixed spelling stands at the front of a text exactly if its first byte is not one of the
signs, or is a colon without its dash. -/
theorem find_fixed_eq_none_iff {c : Char} {rest : List Char} :
    fixedSpellings.find? (fun e => e.1.isPrefixOf (c :: rest)) = none
      ↔ c ∉ signs ∨ c = ':' ∧ rest.head? ≠ some '-' := by
  rw [List.find?_eq_none]
  by_cases hcolon : c = ':'
  · subst hcolon
    cases rest with
    | nil => simp [fixedSpellings]
    | cons d rest => simp [fixedSpellings, signs, eq_comm (a := '-')]
  · have hfront : fixedSpellings.all (fun e => e.1.head?.all signs.contains) = true := by decide
    have halone : ∀ d ∈ signs, (d == ':' || (fixedSpellings.map Prod.fst).contains [d]) = true :=
      List.all_eq_true.1 rfl
    constructor
    · refine fun hnone => .inl fun hc => ?_
      have hmem : [c] ∈ fixedSpellings.map Prod.fst := by simpa [hcolon] using halone c hc
      obtain ⟨e, he, hspelling⟩ := List.mem_map.1 hmem
      exact hnone e he (by simp [hspelling])
    · rintro (hc | ⟨hc, -⟩) e he hfits
      · obtain ⟨d, word, hspelling⟩ := List.exists_cons_of_ne_nil (fixedSpellings_ne_nil e he)
        rw [hspelling, List.isPrefixOf_cons_cons, Bool.and_eq_true, beq_iff_eq] at hfits
        have hd := List.all_eq_true.1 hfront e he
        exact hc (hfits.1 ▸ by simpa [hspelling] using hd)
      · exact hcolon hc

/-- Nothing is read at the front of a text exactly if no token can be. -/
theorem munch_eq_none_iff {c : Char} {rest : List Char} :
    munch (c :: rest) = none ↔ Stuck c rest := by
  have hmunch : munch (c :: rest) = none
      ↔ fixedSpellings.find? (fun e => e.1.isPrefixOf (c :: rest)) = none
        ∧ munchWord (c :: rest) = none := by
    rw [munch]
    cases fixedSpellings.find? (fun e => e.1.isPrefixOf (c :: rest)) <;> simp
  have hcolon : c = ':' → isNameStart c = false ∧ isDigit c = false := by
    rintro rfl
    decide
  rw [hmunch, find_fixed_eq_none_iff, munchWord_eq_none_iff, Stuck, StartsToken]
  grind

/-! ## Layouts -/

/-- A token, the white space in front of it and the bytes that spell it. -/
structure Chunk where
  gap : List Char
  spelling : List Char
  token : Token

/-- The bytes of a row of chunks. -/
def spread (chunks : List Chunk) : List Char := chunks.flatMap fun c => c.gap ++ c.spelling

/-- A chunk that starts in a column stands well before some bytes: its gap is white space, its bytes
spell its token, the token knows its line and the column after the gap, and what follows would not
make it longer. -/
structure Chunk.Sits (c : Chunk) (line : Int) (col : Nat) (after : List Char) : Prop where
  blank : ∀ b ∈ c.gap, Text.isBlank b = true
  spelled : c.token.SpelledBy c.spelling
  line_eq : c.token.line = line
  col_eq : c.token.col = (col + c.gap.length : Nat)
  ends : EndsBefore c.spelling after

/-- Every chunk of a row stands well behind the chunks before it and before all that follows. -/
def Lays (line : Int) (col : Nat) (chunks : List Chunk) (after : List Char) : Prop :=
  ∀ front c back, chunks = front ++ c :: back →
    c.Sits line (col + (spread front).length) (spread back ++ after)

theorem spread_cons (c : Chunk) (chunks : List Chunk) :
    spread (c :: chunks) = c.gap ++ (c.spelling ++ spread chunks) := by
  rw [spread, List.flatMap_cons, List.append_assoc]
  rfl

theorem lays_nil (line : Int) (col : Nat) (after : List Char) : Lays line col [] after := by
  intro front c back h
  simp at h

theorem lays_cons_iff {line : Int} {col : Nat} {c : Chunk} {chunks : List Chunk}
    {after : List Char} :
    Lays line col (c :: chunks) after ↔ c.Sits line col (spread chunks ++ after)
      ∧ Lays line (col + c.gap.length + c.spelling.length) chunks after := by
  have hlength : ∀ front, col + (spread (c :: front)).length
      = col + c.gap.length + c.spelling.length + (spread front).length := by
    intro front
    simp only [spread_cons, List.length_append]
    omega
  constructor
  · intro h
    refine ⟨h [] c chunks rfl, fun front d back hsplit => ?_⟩
    rw [← hlength]
    exact h (c :: front) d back (by rw [hsplit, List.cons_append])
  · rintro ⟨hc, hrest⟩ front d back hsplit
    cases front with
    | nil =>
      obtain ⟨rfl, rfl⟩ := List.cons.inj hsplit
      exact hc
    | cons e front =>
      obtain ⟨rfl, hchunks⟩ := List.cons.inj hsplit
      rw [hlength]
      exact hrest front d back hchunks

theorem scan_gap {gap : List Char} (h : ∀ b ∈ gap, Text.isBlank b = true) (line : Int) (col : Nat)
    (cs : List Char) : scan line col (gap ++ cs) = scan line (col + gap.length) cs := by
  induction gap generalizing col with
  | nil => rfl
  | cons b gap ih =>
    obtain ⟨hb, hgap⟩ := List.forall_mem_cons.1 h
    rw [List.cons_append, scan_blank hb, ih hgap, List.length_cons, Nat.add_assoc, Nat.add_comm 1]

/-- Laid out tokens are what a scan of their bytes reads. -/
theorem scan_spread {line : Int} {col : Nat} {chunks : List Chunk} {after : List Char}
    (h : Lays line col chunks after) :
    scan line col (spread chunks ++ after)
      = { scan line (col + (spread chunks).length) after with
          tokens := chunks.map (·.token)
            ++ (scan line (col + (spread chunks).length) after).tokens } := by
  induction chunks generalizing col with
  | nil => rfl
  | cons c chunks ih =>
    obtain ⟨hc, hchunks⟩ := lays_cons_iff.1 h
    obtain ⟨hmunch, hvalue⟩ := hc.spelled.munch hc.ends
    have htoken : Token.mk c.token.kind (valueOf c.token.kind c.spelling) line
        (col + c.gap.length : Nat) = c.token := by
      rw [hvalue, ← hc.line_eq, ← hc.col_eq]
    rw [spread_cons, List.append_assoc, List.append_assoc, scan_gap hc.blank, scan_spelling hmunch,
      ih hchunks, htoken]
    simp only [List.length_append, List.map_cons, List.cons_append, Nat.add_assoc]

/-- Every text is a row of chunks up to its end, or up to a byte where no token can be read. -/
theorem exists_layout (line : Int) (col : Nat) (cs : List Char) :
    ∃ chunks gap stop, cs = spread chunks ++ (gap ++ stop) ∧ (∀ b ∈ gap, Text.isBlank b = true)
      ∧ Lays line col chunks (gap ++ stop)
      ∧ ∀ c rest, stop = c :: rest → Text.isBlank c = false ∧ Stuck c rest := by
  fun_induction scan line col cs with
  | case1 col => exact ⟨[], [], [], rfl, by simp, lays_nil _ _ _, by simp⟩
  | case2 col c cs hblank ih =>
    obtain ⟨chunks, gap, stop, rfl, hgap, hlays, hstop⟩ := ih
    -- the blank goes to the gap of the next chunk, or to the last one
    cases chunks with
    | nil =>
      exact ⟨[], c :: gap, stop, rfl, List.forall_mem_cons.2 ⟨hblank, hgap⟩, lays_nil _ _ _, hstop⟩
    | cons d chunks =>
      obtain ⟨hd, hchunks⟩ := lays_cons_iff.1 hlays
      refine ⟨{ d with gap := c :: d.gap } :: chunks, gap, stop, by simp [spread_cons], hgap,
        lays_cons_iff.2 ⟨⟨List.forall_mem_cons.2 ⟨hblank, hd.blank⟩, hd.spelled, hd.line_eq, ?_,
          hd.ends⟩, ?_⟩, hstop⟩
      · rw [hd.col_eq, List.length_cons, Nat.add_assoc, Nat.add_comm 1]
      · rw [List.length_cons, ← Nat.add_assoc, Nat.add_right_comm col]
        exact hchunks
  | case3 col c cs hblank hmunch =>
    refine ⟨[], [], c :: cs, rfl, by simp, lays_nil _ _ _, fun d rest hd => ?_⟩
    obtain ⟨rfl, rfl⟩ := List.cons.inj hd
    exact ⟨by simpa using hblank, munch_eq_none_iff.1 hmunch⟩
  | case4 col c cs hblank k spelling r hmunch s ih =>
    obtain ⟨chunks, gap, stop, rfl, hgap, hlays, hstop⟩ := ih
    refine ⟨⟨[], spelling, ⟨k, valueOf k spelling, line, col⟩⟩ :: chunks, gap, stop, ?_, hgap,
      lays_cons_iff.2 ⟨⟨by simp, spelledBy_of_munch hmunch line col, rfl, rfl,
        endsBefore_of_munch hmunch⟩, hlays⟩, hstop⟩
    rw [append_of_munch hmunch, spread_cons, List.nil_append, List.append_assoc]

/-- Bytes with a layout are tokenized to its tokens. -/
theorem tokenizeBytes_of_layout {bytes : List UInt8} {line : Int} {chunks : List Chunk}
    {gap : List Char} (hbytes : bytes.map Text.ofByte = spread chunks ++ gap)
    (hgap : ∀ b ∈ gap, Text.isBlank b = true) (h : Lays (lineNumber line) 1 chunks gap) :
    tokenizeBytes bytes line = .ok (chunks.map (·.token)
      ++ [⟨.eof, "", lineNumber line, (bytes.length + 1 : Nat)⟩]) := by
  have hscan : ∀ col, scan (lineNumber line) col gap = ⟨[], [], col + gap.length, none⟩ := by
    intro col
    have := scan_gap hgap (lineNumber line) col []
    rwa [List.append_nil, scan_nil] at this
  have hlength : bytes.length = (spread chunks).length + gap.length := by
    rw [← List.length_append, ← hbytes, List.length_map]
  rw [tokenizeBytes, hbytes, scan_spread h, hscan, hlength]
  simp only [List.append_nil]
  rw [Nat.add_comm _ 1, Nat.add_assoc]

/-- Where no token can be read after laid out tokens, the scan stops. -/
theorem tokenizeBytes_of_stuck {bytes : List UInt8} {line : Int} {chunks : List Chunk}
    {gap rest : List Char} {c : Char}
    (hbytes : bytes.map Text.ofByte = spread chunks ++ (gap ++ c :: rest))
    (hgap : ∀ b ∈ gap, Text.isBlank b = true) (hblank : Text.isBlank c = false)
    (h : Lays (lineNumber line) 1 chunks (gap ++ c :: rest)) (hstuck : Stuck c rest) :
    tokenizeBytes bytes line
      = .error (stuckFault c (lineNumber line) ((spread chunks ++ gap).length + 1)) := by
  rw [tokenizeBytes, hbytes, scan_spread h, scan_gap hgap,
    scan_stuck (by simp [hblank]) (munch_eq_none_iff.2 hstuck), List.length_append,
    Nat.add_comm _ 1, ← Nat.add_assoc]
  rfl

/-- **The scanner loses nothing and reads as far as it can.** Bytes are tokenized exactly if they
have a layout up to white space at their end, and then the tokens are those of the layout and the
end of input in the column after the last byte. The scan fails exactly if a layout of the bytes in
front of it leads to a byte where no token can be read, which the fault reports. -/
theorem tokenizeBytes_iff_layout (bytes : List UInt8) (line : Int) :
    (∀ tokens, tokenizeBytes bytes line = .ok tokens ↔ ∃ chunks gap,
      bytes.map Text.ofByte = spread chunks ++ gap ∧ (∀ b ∈ gap, Text.isBlank b = true)
        ∧ Lays (lineNumber line) 1 chunks gap
        ∧ tokens = chunks.map (·.token)
          ++ [⟨.eof, "", lineNumber line, (bytes.length + 1 : Nat)⟩])
    ∧ ∀ fault, tokenizeBytes bytes line = .error fault ↔ ∃ chunks gap c rest,
      bytes.map Text.ofByte = spread chunks ++ (gap ++ c :: rest)
        ∧ (∀ b ∈ gap, Text.isBlank b = true) ∧ Text.isBlank c = false
        ∧ Lays (lineNumber line) 1 chunks (gap ++ c :: rest) ∧ Stuck c rest
        ∧ fault = stuckFault c (lineNumber line) ((spread chunks ++ gap).length + 1) := by
  obtain ⟨chunks, gap, stop, hbytes, hgap, hlays, hstop⟩ :=
    exists_layout (lineNumber line) 1 (bytes.map Text.ofByte)
  refine ⟨fun tokens => ⟨fun hok => ?_, ?_⟩, fun fault => ⟨fun herror => ?_, ?_⟩⟩
  · cases stop with
    | nil =>
      rw [List.append_nil] at hbytes hlays
      rw [tokenizeBytes_of_layout hbytes hgap hlays] at hok
      exact ⟨chunks, gap, hbytes, hgap, hlays, (Except.ok.inj hok).symm⟩
    | cons c rest =>
      obtain ⟨hblank, hstuck⟩ := hstop c rest rfl
      rw [tokenizeBytes_of_stuck hbytes hgap hblank hlays hstuck] at hok
      cases hok
  · rintro ⟨chunks, gap, hbytes, hgap, hlays, rfl⟩
    exact tokenizeBytes_of_layout hbytes hgap hlays
  · cases stop with
    | nil =>
      rw [List.append_nil] at hbytes hlays
      rw [tokenizeBytes_of_layout hbytes hgap hlays] at herror
      cases herror
    | cons c rest =>
      obtain ⟨hblank, hstuck⟩ := hstop c rest rfl
      rw [tokenizeBytes_of_stuck hbytes hgap hblank hlays hstuck] at herror
      exact ⟨chunks, gap, c, rest, hbytes, hgap, hblank, hlays, hstuck,
        (Except.error.inj herror).symm⟩
  · rintro ⟨chunks, gap, c, rest, hbytes, hgap, hblank, hlays, hstuck, rfl⟩
    exact tokenizeBytes_of_stuck hbytes hgap hblank hlays hstuck

end Token

end RulePlan
