import RulePlan.Artifact
import RulePlan.Proofs.TimeScalars
import RulePlan.Proofs.WrittenText

/-!
# RulePlan.Proofs.KeptArtifacts — artifacts survive their kept form

The kept form of an artifact is a mapping: two texts, the number of its kind, a timestamp and its
data as a list of bytes. The data may be any text, since reading the UTF-8 bytes of a text gives the
text back. The other two texts come back if they are single lines. A text of several lines may be
written as a block, and a line break in front of such a block is lost.
-/

namespace RulePlan

/-! ## Bytes of texts -/

namespace Text

theorem charFrom?_toNat {c : Char} {least : Nat} (h : least ≤ c.toNat) :
    charFrom? least c.toNat = some c := by
  have hvalid : c.toNat.isValidChar := c.valid
  rw [charFrom?, if_pos ⟨h, hvalid⟩, Char.ofNat_toNat]

theorem toNat_ofNat {n : Nat} (h : n < 256) : (UInt8.ofNat n).toNat = n := by
  rw [UInt8.toNat_ofNat']
  exact Nat.mod_eq_of_lt h

theorem continued?_eq {b : UInt8} {n : Nat} (h : b.toNat = n + 128) (hn : n < 64) :
    continued? b = some n := by
  rw [continued?, h, if_pos (by omega), Nat.add_sub_cancel]

section

variable {c : Char} {a b d e : UInt8} {rest : List UInt8}

theorem leadingChar_one (ha : a.toNat = c.toNat) (h : c.toNat < 128) :
    leadingChar a rest = (c, 0) := by
  rw [leadingChar, if_pos (by omega), ofByte, ha, Char.ofNat_toNat]

theorem leadingChar_two (ha : a.toNat = c.toNat / 64 + 192) (hb : b.toNat = c.toNat % 64 + 128)
    (h : 128 ≤ c.toNat ∧ c.toNat < 2048) : leadingChar a (b :: rest) = (c, 1) := by
  have hsum : 64 * (c.toNat / 64 + 192 - 0xC0) + c.toNat % 64 = c.toNat := by omega
  have hread : twoByteChar? a b = some c := by
    rw [twoByteChar?, ha, if_pos (by omega), continued?_eq hb (by omega), Option.bind_some, hsum,
      charFrom?_toNat h.1]
  rw [leadingChar, if_neg (by omega)]
  simp [hread]

theorem leadingChar_three (ha : a.toNat = c.toNat / 4096 + 224)
    (hb : b.toNat = c.toNat / 64 % 64 + 128) (hd : d.toNat = c.toNat % 64 + 128)
    (h : 2048 ≤ c.toNat ∧ c.toNat < 65536) : leadingChar a (b :: d :: rest) = (c, 2) := by
  have htwo : twoByteChar? a b = none := by rw [twoByteChar?, ha, if_neg (by omega)]
  have hsum : 4096 * (c.toNat / 4096 + 224 - 0xE0) + 64 * (c.toNat / 64 % 64) + c.toNat % 64
      = c.toNat := by omega
  have hread : threeByteChar? a b d = some c := by
    rw [threeByteChar?, ha, if_pos (by omega), continued?_eq hb (by omega), Option.bind_some,
      continued?_eq hd (by omega), Option.bind_some, hsum, charFrom?_toNat h.1]
  rw [leadingChar, if_neg (by omega)]
  simp [htwo, hread]

theorem leadingChar_four (ha : a.toNat = c.toNat / 262144 + 240)
    (hb : b.toNat = c.toNat / 4096 % 64 + 128) (hd : d.toNat = c.toNat / 64 % 64 + 128)
    (he : e.toNat = c.toNat % 64 + 128) (h : 65536 ≤ c.toNat ∧ c.toNat < 0x110000) :
    leadingChar a (b :: d :: e :: rest) = (c, 3) := by
  have htwo : twoByteChar? a b = none := by rw [twoByteChar?, ha, if_neg (by omega)]
  have hthree : threeByteChar? a b d = none := by rw [threeByteChar?, ha, if_neg (by omega)]
  have hsum : 262144 * (c.toNat / 262144 + 240 - 0xF0) + 4096 * (c.toNat / 4096 % 64)
      + 64 * (c.toNat / 64 % 64) + c.toNat % 64 = c.toNat := by omega
  have hread : fourByteChar? a b d e = some c := by
    rw [fourByteChar?, ha, if_pos (by omega), continued?_eq hb (by omega), Option.bind_some,
      continued?_eq hd (by omega), Option.bind_some, continued?_eq he (by omega), Option.bind_some,
      hsum, charFrom?_toNat h.1]
  rw [leadingChar, if_neg (by omega)]
  simp [htwo, hthree, hread]

end

/-- A character is read off its bytes, whatever follows them. -/
theorem leadingChar_utf8EncodeChar (c : Char) (rest : List UInt8) :
    ∃ a more, String.utf8EncodeChar c = a :: more
      ∧ leadingChar a (more ++ rest) = (c, more.length) := by
  have hv : c.val.toNat = c.toNat := rfl
  have hlarge : c.toNat < 0x110000 := by
    have := c.valid
    unfold UInt32.isValidChar Nat.isValidChar at this
    omega
  unfold String.utf8EncodeChar
  simp only [hv]
  split_ifs with hone htwo hthree
  · exact ⟨_, _, rfl, leadingChar_one (toNat_ofNat (by omega)) (by omega)⟩
  · refine ⟨_, _, rfl, leadingChar_two ?_ (toNat_ofNat (by omega)) (by omega)⟩
    rw [toNat_ofNat (by omega)]
    omega
  · refine ⟨_, _, rfl, leadingChar_three ?_ (toNat_ofNat (by omega)) (toNat_ofNat (by omega))
      (by omega)⟩
    rw [toNat_ofNat (by omega)]
    omega
  · refine ⟨_, _, rfl, leadingChar_four ?_ (toNat_ofNat (by omega)) (toNat_ofNat (by omega))
      (toNat_ofNat (by omega)) (by omega)⟩
    rw [toNat_ofNat (by omega)]
    omega

theorem charsOfBytes_flatMap (cs : List Char) :
    charsOfBytes (cs.flatMap String.utf8EncodeChar) = cs := by
  induction cs with
  | nil => rw [List.flatMap_nil, charsOfBytes]
  | cons c cs ih =>
    obtain ⟨a, more, hbytes, hread⟩ :=
      leadingChar_utf8EncodeChar c (cs.flatMap String.utf8EncodeChar)
    rw [List.flatMap_cons, hbytes, List.cons_append, charsOfBytes, hread]
    simp only [List.drop_left, ih]

/-- A text is read off its bytes. -/
theorem ofBytes_toUTF8 (s : String) : ofBytes s.toUTF8.toList = s := by
  rw [ofBytes, toList_toUTF8, charsOfBytes_flatMap, String.ofList_toList]

end Text

/-! ## Artifacts -/

namespace Artifact

open Yaml Yaml.Form

/-- An artifact whose names are single lines. Its data may be any text. -/
structure Portable (a : Artifact) : Prop where
  key : Text.IsSingleLine a.key
  file : Text.IsSingleLine a.file
  created : a.created.Proper

theorem carries_byte {room : Nat} (b : UInt8) :
    Carries room (.ofInt b.toNat) Node.intoByte b := by
  have hsmall : b.toNat < 256 := b.toNat_lt
  have htext : Text.Decimal.ofInt b.toNat = Text.Decimal.ofNat b.toNat := by
    rw [ofInt_eq (by omega), Int.toNat_natCast]
  have hread : Scalar.ofPlain (Text.Decimal.ofInt b.toNat) = .int b.toNat := by
    rw [htext, ofPlain_ofNat (by omega)]
  have hrange : (0 : Int) ≤ b.toNat ∧ (b.toNat : Int) < 256 := by omega
  constructor
  · rw [ofInt, htext]
    exact .verbatim (unquoted_of_isName (isName_ofNat _))
  · rw [ofInt, toNode, Node.intoByte, Node.intoScalar]
    refine (Direct.plain _).gives ?_
    simp only [Node.scalar?, hread, hrange, and_self, if_true, Int.toNat_natCast, UInt8.ofNat_toNat]
    exact Gives.pure _

theorem carries_bytes {room : Nat} (s : String) :
    Carries (room + 1) (bytesForm s) (Node.intoList Node.intoByte) s.toUTF8.toList :=
  carries_list (by simp [Form.ofInt]) fun b _ => carries_byte b

theorem carries_time {room : Nat} {t : Timestamp} (h : t.Proper) :
    Carries room (.verbatim t.render) Node.intoTime t := by
  refine ⟨.verbatim (unquoted_render h), ?_⟩
  rw [toNode, Node.intoTime, Node.intoScalar]
  refine (Direct.plain _).gives ?_
  simp only [Node.scalar?, ofPlain_render h]
  exact Gives.pure _

theorem Portable.carries {a : Artifact} (h : a.Portable) :
    Carries 2 a.toForm (Node.intoRecord fields ⟨"", "", .yaml, .zero, ""⟩) a := by
  refine carries_record ["key", "file", "kind", "created", "data"] ?_ (by simp) (by decide)
    (by decide +kernel)
  refine .field rfl (carries_text h.key) ?_
  refine .field rfl (carries_text h.file) ?_
  refine .field rfl (carries_byte a.kind.code) ?_
  refine .field rfl (carries_time h.created) ?_
  refine .field rfl (carries_bytes a.data) ?_
  rw [Text.ofBytes_toUTF8]
  exact .done _

theorem Portable.parse_encode {a : Artifact} (h : a.Portable) :
    Node.parse a.encode = .ok a.toForm.toNode :=
  Node.parse_writable (by decide) (by decide) h.carries.writable

theorem Portable.decode?_toNode {a : Artifact} (h : a.Portable) :
    a.toForm.toNode.decode? fields ⟨"", "", .yaml, .zero, ""⟩ = some a := by
  obtain ⟨t, hread, -⟩ := h.carries.gives { visits := 1 } ⟨rfl, rfl⟩
  have hrun :
      (Node.intoRecord fields ⟨"", "", .yaml, .zero, ""⟩ a.toForm.toNode).run { visits := 1 }
      = some (some a, t) := hread
  rw [Node.decode?, hrun]
  rfl

/-- **Artifacts survive their kept form.** -/
theorem decode_encode {a : Artifact} (h : a.Portable) : decode a.encode = .ok a := by
  unfold decode
  rw [h.parse_encode]
  simp only [h.decode?_toNode]

end Artifact

end RulePlan
