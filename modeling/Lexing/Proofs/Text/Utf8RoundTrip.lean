import Lexing.Text.Utf8

/-! What is written in UTF-8 reads back. -/

namespace Lexing.Text.Utf8

theorem lead_one : ∀ k < 0x80, Lead.ofByte? (UInt8.ofNat k) = some ⟨k, 0, 0x80, 0xbf⟩ := by
  decide +kernel

theorem lead_two : ∀ k < 0x20, 2 ≤ k →
    Lead.ofByte? (UInt8.ofNat (k + 0xc0)) = some ⟨k, 1, 0x80, 0xbf⟩ := by
  decide +kernel

theorem lead_three : ∀ k < 0x10, Lead.ofByte? (UInt8.ofNat (k + 0xe0)) =
    some ⟨k, 2, if k = 0 then 0xa0 else 0x80, if k = 0xd then 0x9f else 0xbf⟩ := by
  decide +kernel

theorem lead_four : ∀ k < 5, Lead.ofByte? (UInt8.ofNat (k + 0xf0)) =
    some ⟨k, 3, if k = 0 then 0x90 else 0x80, if k = 4 then 0x8f else 0xbf⟩ := by
  decide +kernel

/-- A byte that carries six bits and is in its range is taken. -/
theorem readTails_cons {value owed seen m : Nat} {low high : UInt8} (bs : List UInt8) (hm : m < 0x40)
    (hlow : low.toNat ≤ m + 0x80) (hhigh : m + 0x80 ≤ high.toNat) :
    readTails value low high (owed + 1) seen (UInt8.ofNat (m + 0x80) :: bs) =
      readTails (value * 64 + m) 0x80 0xbf owed (seen + 1) bs := by
  have hb : (UInt8.ofNat (m + 0x80)).toNat = m + 0x80 := by
    rw [UInt8.toNat_ofNat']
    exact Nat.mod_eq_of_lt (by omega)
  have hin : low ≤ UInt8.ofNat (m + 0x80) ∧ UInt8.ofNat (m + 0x80) ≤ high := by
    rw [UInt8.le_iff_toNat_le, UInt8.le_iff_toNat_le, hb]
    exact ⟨hlow, hhigh⟩
  rw [readTails, if_pos hin, hb, Nat.add_sub_cancel]

/-- A byte that may stand anywhere but behind a lead with a range of its own. -/
theorem readTails_cons_plain {value owed seen : Nat} (v : Nat) (bs : List UInt8) :
    readTails value 0x80 0xbf (owed + 1) seen (UInt8.ofNat (v % 0x40 + 0x80) :: bs) =
      readTails (value * 64 + v % 0x40) 0x80 0xbf owed (seen + 1) bs := by
  have hm : v % 0x40 < 0x40 := Nat.mod_lt _ (by decide)
  have hlow : (0x80 : UInt8).toNat ≤ v % 0x40 + 0x80 := Nat.le_add_left ..
  have hhigh : v % 0x40 + 0x80 ≤ (0xbf : UInt8).toNat := Nat.add_le_add_right (Nat.le_of_lt_succ hm) _
  exact readTails_cons bs hm hlow hhigh

theorem readTails_done {value seen : Nat} {low high : UInt8} (bs : List UInt8) :
    readTails value low high 0 seen bs = .ok (value, bs) := rfl

theorem readChar_of_lead {b : UInt8} {bs rest : List UInt8} {lead : Lead} {c : Char}
    (h : Lead.ofByte? b = some lead)
    (ht : readTails lead.bits lead.low lead.high lead.tails 1 bs = .ok (c.toNat, rest)) :
    readChar b bs = .ok (c, rest) := by
  rw [readChar, h]
  simp only [ht, bind, Except.bind, pure, Except.pure, Char.ofNat_toNat]

theorem toNat_valid (c : Char) : c.toNat < 0xd800 ∨ 0xdfff < c.toNat ∧ c.toNat < 0x110000 := c.valid

theorem readChar_two {c : Char} (rest : List UInt8) (hlow : 0x7f < c.toNat) (hhigh : c.toNat ≤ 0x7ff) :
    readChar (UInt8.ofNat (c.toNat / 64 % 0x20 + 0xc0))
      (UInt8.ofNat (c.toNat % 0x40 + 0x80) :: rest) = .ok (c, rest) := by
  apply readChar_of_lead (lead_two (c.toNat / 64 % 0x20) (by omega) (by omega))
  have hvalue : c.toNat / 64 % 0x20 * 64 + c.toNat % 0x40 = c.toNat := by omega
  rw [readTails_cons_plain, readTails_done, hvalue]

theorem readChar_three {c : Char} (rest : List UInt8) (hlow : 0x7ff < c.toNat) (hhigh : c.toNat ≤ 0xffff) :
    readChar (UInt8.ofNat (c.toNat / 4096 % 0x10 + 0xe0))
      (UInt8.ofNat (c.toNat / 64 % 0x40 + 0x80) :: UInt8.ofNat (c.toNat % 0x40 + 0x80) :: rest) =
        .ok (c, rest) := by
  have hvalid := toNat_valid c
  apply readChar_of_lead (lead_three (c.toNat / 4096 % 0x10) (by omega))
  have hvalue : (c.toNat / 4096 % 0x10 * 64 + c.toNat / 64 % 0x40) * 64 + c.toNat % 0x40 = c.toNat := by
    omega
  rw [readTails_cons, readTails_cons_plain, readTails_done, hvalue]
  · omega
  · change (if c.toNat / 4096 % 0x10 = 0 then (0xa0 : UInt8) else 0x80).toNat ≤ _
    split
    · exact (by omega : 0xa0 ≤ c.toNat / 64 % 0x40 + 0x80)
    · exact Nat.le_add_left ..
  · change _ ≤ (if c.toNat / 4096 % 0x10 = 0xd then (0x9f : UInt8) else 0xbf).toNat
    split
    · exact (by omega : c.toNat / 64 % 0x40 + 0x80 ≤ 0x9f)
    · exact (by omega : c.toNat / 64 % 0x40 + 0x80 ≤ 0xbf)

theorem readChar_four {c : Char} (rest : List UInt8) (hlow : 0xffff < c.toNat) :
    readChar (UInt8.ofNat (c.toNat / 262144 % 0x08 + 0xf0))
      (UInt8.ofNat (c.toNat / 4096 % 0x40 + 0x80) :: UInt8.ofNat (c.toNat / 64 % 0x40 + 0x80) ::
        UInt8.ofNat (c.toNat % 0x40 + 0x80) :: rest) = .ok (c, rest) := by
  have hvalid := toNat_valid c
  apply readChar_of_lead (lead_four (c.toNat / 262144 % 0x08) (by omega))
  have hvalue : ((c.toNat / 262144 % 0x08 * 64 + c.toNat / 4096 % 0x40) * 64 + c.toNat / 64 % 0x40) * 64 +
      c.toNat % 0x40 = c.toNat := by
    omega
  rw [readTails_cons, readTails_cons_plain, readTails_cons_plain, readTails_done, hvalue]
  · omega
  · change (if c.toNat / 262144 % 0x08 = 0 then (0x90 : UInt8) else 0x80).toNat ≤ _
    split
    · exact (by omega : 0x90 ≤ c.toNat / 4096 % 0x40 + 0x80)
    · exact Nat.le_add_left ..
  · change _ ≤ (if c.toNat / 262144 % 0x08 = 4 then (0x8f : UInt8) else 0xbf).toNat
    split
    · exact (by omega : c.toNat / 4096 % 0x40 + 0x80 ≤ 0x8f)
    · exact (by omega : c.toNat / 4096 % 0x40 + 0x80 ≤ 0xbf)

/-- The bytes of a character are read as this character, whatever follows. -/
theorem readChar_encode (c : Char) : ∃ b bs, String.utf8EncodeChar c = b :: bs ∧
    ∀ rest, readChar b (bs ++ rest) = .ok (c, rest) := by
  by_cases h1 : c.toNat ≤ 0x7f
  · refine ⟨_, _, if_pos h1, ?_⟩
    intro rest
    exact readChar_of_lead (lead_one c.toNat (by omega)) (readTails_done rest)
  · by_cases h2 : c.toNat ≤ 0x7ff
    · refine ⟨_, _, (if_neg h1).trans (if_pos h2), ?_⟩
      intro rest
      exact readChar_two rest (by omega) h2
    · by_cases h3 : c.toNat ≤ 0xffff
      · refine ⟨_, _, (if_neg h1).trans ((if_neg h2).trans (if_pos h3)), ?_⟩
        intro rest
        exact readChar_three rest (by omega) h3
      · refine ⟨_, _, (if_neg h1).trans ((if_neg h2).trans (if_neg h3)), ?_⟩
        intro rest
        exact readChar_four rest (by omega)

theorem decodeFrom_cons {b : UInt8} {bs rest : List UInt8} {c : Char} (offset : Nat) (acc : List Char)
    (h : readChar b bs = .ok (c, rest)) :
    decodeFrom offset acc (b :: bs) = decodeFrom (offset + c.utf8Size) (c :: acc) rest := by
  rw [decodeFrom]
  split
  · next h' =>
      rw [h] at h'
      cases h'
      rfl
  · next h' =>
      rw [h] at h'
      cases h'

theorem decodeFrom_encode (offset : Nat) (acc cs : List Char) :
    decodeFrom offset acc (cs.flatMap String.utf8EncodeChar) = .ok (acc.reverse ++ cs) := by
  induction cs generalizing offset acc with
  | nil => rw [List.flatMap_nil, decodeFrom, List.append_nil]
  | cons c cs ih =>
      obtain ⟨b, bs, hc, hread⟩ := readChar_encode c
      rw [List.flatMap_cons, hc, List.cons_append, decodeFrom_cons offset acc (hread _), ih,
        List.reverse_cons, List.append_assoc, List.singleton_append]

theorem decode_encode (s : String) : decode (encode s) = .ok s := by
  rw [decode, encode, decodeFrom_encode]
  exact congrArg Except.ok (String.ofList_toList ..)

theorem length_encode (s : String) : (encode s).length = s.utf8ByteSize := by
  rw [← String.size_toByteArray, ← String.utf8Encode_toList, encode, List.utf8Encode]
  simp

end Lexing.Text.Utf8
