/-!
# RulePlan.Text.Bytes — a text as the sequence of its UTF-8 bytes

Rule text is scanned byte by byte, and a byte that starts no token is reported as the character of
the same number. `bytes` therefore presents the UTF-8 encoding of a text as a list of characters
below 256, one for each byte; on ASCII text it is the list of characters itself.
-/

namespace RulePlan.Text

/-- The character with the number of a byte. -/
def ofByte (b : UInt8) : Char := Char.ofNat b.toNat

/-- The UTF-8 bytes of a text, each as the character of that number. -/
def bytes (s : String) : List Char := s.toUTF8.toList.map ofByte

/-- The number of UTF-8 bytes of a text. -/
def byteLength (s : String) : Nat := s.utf8ByteSize

/-! ## Texts from bytes -/

/-- What stands for a byte that belongs to no character. -/
def replacement : Char := Char.ofNat 0xFFFD

/-- The six low bits of a byte that continues a character. -/
def continued? (b : UInt8) : Option Nat :=
  if 0x80 ≤ b.toNat ∧ b.toNat < 0xC0 then some (b.toNat - 0x80) else none

/-- The character of a number from a least one on. -/
def charFrom? (least n : Nat) : Option Char :=
  if least ≤ n ∧ n.isValidChar then some (Char.ofNat n) else none

/-- A character of two bytes. -/
def twoByteChar? (a b : UInt8) : Option Char :=
  if 0xC0 ≤ a.toNat ∧ a.toNat < 0xE0 then
    (continued? b).bind fun b => charFrom? 0x80 (64 * (a.toNat - 0xC0) + b)
  else none

/-- A character of three bytes. -/
def threeByteChar? (a b c : UInt8) : Option Char :=
  if 0xE0 ≤ a.toNat ∧ a.toNat < 0xF0 then
    (continued? b).bind fun b => (continued? c).bind fun c =>
      charFrom? 0x800 (4096 * (a.toNat - 0xE0) + 64 * b + c)
  else none

/-- A character of four bytes. -/
def fourByteChar? (a b c d : UInt8) : Option Char :=
  if 0xF0 ≤ a.toNat ∧ a.toNat < 0xF8 then
    (continued? b).bind fun b => (continued? c).bind fun c => (continued? d).bind fun d =>
      charFrom? 0x10000 (262144 * (a.toNat - 0xF0) + 4096 * b + 64 * c + d)
  else none

/-- The character that starts with a byte, and how many further bytes it has. A byte that starts no
character is replaced. -/
def leadingChar (a : UInt8) (rest : List UInt8) : Char × Nat :=
  if a.toNat < 0x80 then (ofByte a, 0)
  else
    let at_ (n : Nat) : UInt8 := rest.getD n 0
    match twoByteChar? a (at_ 0), threeByteChar? a (at_ 0) (at_ 1),
      fourByteChar? a (at_ 0) (at_ 1) (at_ 2) with
    | some c, _, _ => (c, 1)
    | none, some c, _ => (c, 2)
    | none, none, some c => (c, 3)
    | none, none, none => (replacement, 0)

/-- The characters of some bytes. -/
def charsOfBytes : List UInt8 → List Char
  | [] => []
  | a :: rest => (leadingChar a rest).1 :: charsOfBytes (rest.drop (leadingChar a rest).2)
termination_by bs => bs.length
decreasing_by
  rw [List.length_drop, List.length_cons]
  omega

/-- The text of some bytes. -/
def ofBytes (bs : List UInt8) : String := String.ofList (charsOfBytes bs)

theorem toNat_ofByte (b : UInt8) : (ofByte b).toNat = b.toNat := by
  have hb : b.toNat < 256 := b.toNat_lt
  have hv : b.toNat.isValidChar := Or.inl (by omega)
  rw [ofByte, Char.ofNat, dif_pos hv]
  rfl

/-- Every character of `bytes` is a byte. -/
theorem toNat_lt_of_mem_bytes {s : String} {c : Char} (h : c ∈ bytes s) : c.toNat < 256 := by
  obtain ⟨b, -, rfl⟩ := List.mem_map.1 h
  rw [toNat_ofByte]
  exact b.toNat_lt

end RulePlan.Text
