import RulePlan.Text.Blank
import RulePlan.Text.Bytes
import RulePlan.Token

/-!
# RulePlan.Token.Lexer — from the bytes of a rule line to its tokens

`munch` reads the longest token at the front of a text and returns its spelling with what follows:
nothing is lost (`append_of_munch`) and something is always consumed (`ne_nil_of_munch`). `scan`
alternates `munch` with skipping white space, keeps the byte column, and stops at the first byte
that starts no token. `tokenizeBytes` is one complete scan closed by an end-of-input token, and
`tokenize` is that of the bytes of a text; `Lexer` is a scan that can be resumed and read token by
token.
-/

namespace RulePlan.Token

/-- ASCII digits. -/
def isDigit (c : Char) : Bool := '0' ≤ c && c ≤ '9'

/-- ASCII letters and the underscore start a name. -/
def isNameStart (c : Char) : Bool := c == '_' || ('a' ≤ c && c ≤ 'z') || ('A' ≤ c && c ≤ 'Z')

/-- Names go on with letters, underscores and digits. -/
def isNamePart (c : Char) : Bool := isNameStart c || isDigit c

/-- Why a scan stops: a byte that starts no token, or a colon without its dash. -/
inductive LexFault where
  | unexpected (char : Char) (line : Int) (col : Int)
  | loneColon (line : Int) (col : Int)
deriving DecidableEq, Repr

/-- The wording of a scan failure. -/
def LexFault.message : LexFault → String
  | .unexpected c line col =>
    "unexpected character '" ++ String.singleton c ++ "' at " ++ Text.Decimal.ofInt line ++ ":"
      ++ Text.Decimal.ofInt col
  | .loneColon line col =>
    "unexpected character ':' at " ++ Text.Decimal.ofInt line ++ ":" ++ Text.Decimal.ofInt col
      ++ " (expected ':-')"

/-- The kind of a word: `not` is the negation sign, all other words are names. -/
def wordKind (word : List Char) : Kind := if word = ['n', 'o', 't'] then .not else .ident

/-- The tokens with a fixed spelling. Two-byte spellings stand before their one-byte fronts, so that
the first entry that fits is the longest. -/
def fixedSpellings : List (List Char × Kind) :=
  [([':', '-'], .implies), (['!', '='], .op), (['=', '='], .op), (['<', '='], .op),
    (['>', '='], .op), (['('], .leftParen), ([')'], .rightParen), ([','], .comma), (['.'], .dot),
    (['!'], .not), (['='], .op), (['<'], .op), (['>'], .op), (['+'], .op), (['-'], .op),
    (['*'], .op), (['/'], .op), (['%'], .op)]

/-- A number or a word at the front of a text. -/
def munchWord : List Char → Option (Kind × List Char × List Char)
  | [] => none
  | c :: r =>
    if isDigit c then some (.int, c :: r.takeWhile isDigit, r.dropWhile isDigit)
    else if isNameStart c then
      some (wordKind (c :: r.takeWhile isNamePart), c :: r.takeWhile isNamePart,
        r.dropWhile isNamePart)
    else none

/-- The longest token at the front of a text: its kind, its spelling and the text after it. -/
def munch (cs : List Char) : Option (Kind × List Char × List Char) :=
  match fixedSpellings.find? (fun e => e.1.isPrefixOf cs) with
  | some (spelling, k) => some (k, spelling, cs.drop spelling.length)
  | none => munchWord cs

theorem append_of_munchWord {cs s r : List Char} {k : Kind} (h : munchWord cs = some (k, s, r)) :
    cs = s ++ r := by
  unfold munchWord at h
  split at h
  · simp at h
  · split at h
    · simp only [Option.some.injEq, Prod.mk.injEq] at h
      obtain ⟨-, rfl, rfl⟩ := h
      simp
    · split at h
      · simp only [Option.some.injEq, Prod.mk.injEq] at h
        obtain ⟨-, rfl, rfl⟩ := h
        simp
      · simp at h

theorem ne_nil_of_munchWord {cs s r : List Char} {k : Kind} (h : munchWord cs = some (k, s, r)) :
    s ≠ [] := by
  unfold munchWord at h
  split at h
  · simp at h
  · split at h
    · simp only [Option.some.injEq, Prod.mk.injEq] at h
      obtain ⟨-, rfl, -⟩ := h
      simp
    · split at h
      · simp only [Option.some.injEq, Prod.mk.injEq] at h
        obtain ⟨-, rfl, -⟩ := h
        simp
      · simp at h

/-- No fixed spelling is empty. -/
theorem fixedSpellings_ne_nil : ∀ e ∈ fixedSpellings, e.1 ≠ [] := by decide

/-- The spelling is the front of the text. -/
theorem append_of_munch {cs s r : List Char} {k : Kind} (h : munch cs = some (k, s, r)) :
    cs = s ++ r := by
  unfold munch at h
  split at h
  · next spelling kind hf =>
    simp only [Option.some.injEq, Prod.mk.injEq] at h
    obtain ⟨-, rfl, rfl⟩ := h
    have front := List.find?_some hf
    exact (List.prefix_iff_eq_append.1 (List.isPrefixOf_iff_prefix.1 front)).symm
  · exact append_of_munchWord h

/-- A token is never empty. -/
theorem ne_nil_of_munch {cs s r : List Char} {k : Kind} (h : munch cs = some (k, s, r)) :
    s ≠ [] := by
  unfold munch at h
  split at h
  · next spelling kind hf =>
    simp only [Option.some.injEq, Prod.mk.injEq] at h
    obtain ⟨-, rfl, -⟩ := h
    exact fixedSpellings_ne_nil _ (List.mem_of_find?_eq_some hf)
  · exact ne_nil_of_munchWord h

/-- What follows a token is shorter than the text it starts. -/
theorem length_lt_of_munch {cs s r : List Char} {k : Kind} (h : munch cs = some (k, s, r)) :
    r.length < cs.length := by
  rw [append_of_munch h, List.length_append]
  have := List.length_pos_iff.2 (ne_nil_of_munch h)
  omega

/-- The spelling that a kind leaves open; fixed kinds carry none. -/
def valueOf (k : Kind) (spelling : List Char) : String :=
  match k with
  | .ident | .int | .op => String.ofList spelling
  | _ => ""

/-- How a scan ended: the tokens read, the text and the column where it stopped, and why. -/
structure Scan where
  tokens : List Token
  rest : List Char
  col : Nat
  fault : Option LexFault
deriving Repr

/-- Scans a text from a column on. -/
def scan (line : Int) (col : Nat) : List Char → Scan
  | [] => ⟨[], [], col, none⟩
  | c :: cs =>
    if Text.isBlank c then scan line (col + 1) cs
    else
      match _hm : munch (c :: cs) with
      | none =>
        ⟨[], c :: cs, col, some (if c = ':' then .loneColon line col else .unexpected c line col)⟩
      | some (k, spelling, r) =>
        let s := scan line (col + spelling.length) r
        { s with tokens := ⟨k, valueOf k spelling, line, col⟩ :: s.tokens }
termination_by cs => cs.length
decreasing_by
  · simp
  · exact length_lt_of_munch _hm

/-- What holds of every token that is munched holds of all that are scanned. -/
theorem forall_mem_scan {P : Token → Prop} {line : Int}
    (hmunched : ∀ {cs k spelling r}, munch cs = some (k, spelling, r) →
      ∀ col : Nat, P ⟨k, valueOf k spelling, line, col⟩) (col : Nat) (cs : List Char) :
    ∀ t ∈ (scan line col cs).tokens, P t := by
  fun_induction scan line col cs with
  | case1 col => simp
  | case2 col c cs hblank ih => exact ih
  | case3 col c cs hblank hmunch => simp
  | case4 col c cs hblank k spelling r hmunch s ih =>
    exact List.forall_mem_cons.2 ⟨hmunched hmunch col, ih⟩

/-- Lines count from one; smaller numbers mean the first line. -/
def lineNumber (line : Int) : Int := if line ≤ 0 then 1 else line

/-- All tokens of a sequence of bytes, closed by an end-of-input token. The bytes need not be those
of a text. -/
def tokenizeBytes (bytes : List UInt8) (line : Int) : Except LexFault (List Token) :=
  let s := scan (lineNumber line) 1 (bytes.map Text.ofByte)
  match s.fault with
  | some fault => .error fault
  | none => .ok (s.tokens ++ [⟨.eof, "", lineNumber line, s.col⟩])

/-- Bytes are tokenized iff they are scanned without a fault. -/
theorem tokenizeBytes_eq_ok_iff {bytes : List UInt8} {line : Int} {tokens : List Token} :
    tokenizeBytes bytes line = .ok tokens
      ↔ (scan (lineNumber line) 1 (bytes.map Text.ofByte)).fault = none
        ∧ (scan (lineNumber line) 1 (bytes.map Text.ofByte)).tokens
          ++ [⟨.eof, "", lineNumber line, (scan (lineNumber line) 1 (bytes.map Text.ofByte)).col⟩]
            = tokens := by
  unfold tokenizeBytes
  dsimp only
  cases (scan (lineNumber line) 1 (bytes.map Text.ofByte)).fault with
  | none => simp
  | some fault => simp

/-- All tokens of a text, closed by an end-of-input token. -/
def tokenize (text : String) (line : Int) : Except LexFault (List Token) :=
  tokenizeBytes text.toUTF8.toList line

/-- A scan that can be resumed, with a reading position in the tokens it has produced. -/
structure Lexer where
  line : Int
  col : Nat
  rest : List Char
  tokens : List Token
  next : Nat

namespace Lexer

/-- A lexer in front of a text. -/
def start (text : String) (line : Int) : Lexer := ⟨lineNumber line, 1, Text.bytes text, [], 0⟩

/-- Scans on. Success appends an end-of-input token; a failure keeps the tokens before it. -/
def run (l : Lexer) : Lexer × Option LexFault :=
  let s := scan l.line l.col l.rest
  let closing := if s.fault.isNone then [⟨.eof, "", l.line, s.col⟩] else []
  ({ l with col := s.col, rest := s.rest, tokens := l.tokens ++ s.tokens ++ closing }, s.fault)

/-- The token at the reading position; past the last one, an end of input at the scan position. -/
def peek (l : Lexer) : Token := l.tokens[l.next]?.getD ⟨.eof, "", l.line, l.col⟩

/-- Steps over the token at the reading position. -/
def advance (l : Lexer) : Lexer := { l with next := min (l.next + 1) l.tokens.length }

end Lexer

end RulePlan.Token
