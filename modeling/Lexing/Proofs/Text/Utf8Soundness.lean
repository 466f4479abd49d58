import Lexing.Proofs.Text.Utf8RoundTrip

/-! Nothing but UTF-8 is read as UTF-8: bytes decode to a text exactly when they are its encoding. -/

namespace Lexing.Text.Utf8

/-- A tail that is read lies in its range, and the tails after it are read with what it carries. -/
theorem readTails_succ_eq_ok {value owed seen n : Nat} {low high : UInt8} {bs rest : List UInt8}
    (h : readTails value low high (owed + 1) seen bs = .ok (n, rest)) :
    ∃ b tail, bs = b :: tail ∧ low.toNat ≤ b.toNat ∧ b.toNat ≤ high.toNat ∧
      readTails (value * 64 + (b.toNat - 0x80)) 0x80 0xbf owed (seen + 1) tail = .ok (n, rest) := by
  cases bs with
  | nil => cases h
  | cons b tail =>
      rw [readTails] at h
      split at h
      · next hin => exact ⟨b, tail, rfl, hin.1, hin.2, h⟩
      · cases h

theorem readTails_zero_eq_ok {value seen n : Nat} {low high : UInt8} {bs rest : List UInt8}
    (h : readTails value low high 0 seen bs = .ok (n, rest)) : n = value ∧ rest = bs := by
  cases h
  exact ⟨rfl, rfl⟩

theorem readChar_eq_ok {b : UInt8} {bs rest : List UInt8} {c : Char} (h : readChar b bs = .ok (c, rest)) :
    ∃ lead n, Lead.ofByte? b = some lead ∧
      readTails lead.bits lead.low lead.high lead.tails 1 bs = .ok (n, rest) ∧ c = Char.ofNat n := by
  rw [readChar] at h
  split at h
  · cases h
  · next lead hlead =>
      cases htails : readTails lead.bits lead.low lead.high lead.tails 1 bs with
      | error e =>
          rw [htails] at h
          cases h
      | ok p =>
          rw [htails] at h
          cases h
          exact ⟨lead, p.1, hlead, htails, rfl⟩

/-- The four widths of a character, told by the first byte. -/
theorem lead_cases {b : UInt8} {lead : Lead} (h : Lead.ofByte? b = some lead) :
    b.toNat < 0x80 ∧ lead = ⟨b.toNat, 0, 0x80, 0xbf⟩ ∨
    (0xc2 ≤ b.toNat ∧ b.toNat < 0xe0) ∧ lead = ⟨b.toNat - 0xc0, 1, 0x80, 0xbf⟩ ∨
    (0xe0 ≤ b.toNat ∧ b.toNat < 0xf0) ∧ lead = ⟨b.toNat - 0xe0, 2, if b = 0xe0 then 0xa0 else 0x80,
      if b = 0xed then 0x9f else 0xbf⟩ ∨
    (0xf0 ≤ b.toNat ∧ b.toNat < 0xf5) ∧ lead = ⟨b.toNat - 0xf0, 3, if b = 0xf0 then 0x90 else 0x80,
      if b = 0xf4 then 0x8f else 0xbf⟩ := by
  have hlt {n : UInt8} (hb : b < n) : b.toNat < n.toNat := UInt8.lt_iff_toNat_lt.mp hb
  have hle {n : UInt8} (hb : ¬b < n) : n.toNat ≤ b.toNat := Nat.le_of_not_lt hb
  rw [Lead.ofByte?] at h
  split at h
  · next h1 => exact .inl ⟨hlt h1, (Option.some.inj h).symm⟩
  split at h
  · cases h
  split at h
  · next _ h2 h3 => exact .inr (.inl ⟨⟨hle h2, hlt h3⟩, (Option.some.inj h).symm⟩)
  split at h
  · next _ _ h3 h4 => exact .inr (.inr (.inl ⟨⟨hle h3, hlt h4⟩, (Option.some.inj h).symm⟩))
  split at h
  · next _ _ _ h4 h5 => exact .inr (.inr (.inr ⟨⟨hle h4, hlt h5⟩, (Option.some.inj h).symm⟩))
  · cases h

theorem toNat_ofNat_of_valid {n : Nat} (h : n < 0xd800 ∨ 0xdfff < n ∧ n < 0x110000) : (Char.ofNat n).toNat = n := by
  rw [Char.ofNat, dif_pos h]
  rfl

theorem ofNat_eq {b : UInt8} {n : Nat} (h : n = b.toNat) : UInt8.ofNat n = b := by
  rw [h, UInt8.ofNat_toNat]

theorem encodeChar_one {b : UInt8} (h : b.toNat < 0x80) : String.utf8EncodeChar (Char.ofNat b.toNat) = [b] := by
  have hn : (Char.ofNat b.toNat).toNat = b.toNat := toNat_ofNat_of_valid (by omega)
  have hle : (Char.ofNat b.toNat).toNat ≤ 0x7f := by omega
  refine (if_pos hle).trans ?_
  change [UInt8.ofNat (Char.ofNat b.toNat).toNat] = _
  rw [hn, UInt8.ofNat_toNat]

theorem encodeChar_two {b b1 : UInt8} {n : Nat} (hb : 0xc2 ≤ b.toNat ∧ b.toNat < 0xe0)
    (hlow : 0x80 ≤ b1.toNat) (hhigh : b1.toNat ≤ 0xbf)
    (hvalue : n = (b.toNat - 0xc0) * 64 + (b1.toNat - 0x80)) :
    String.utf8EncodeChar (Char.ofNat n) = [b, b1] := by
  have hn : (Char.ofNat n).toNat = n := toNat_ofNat_of_valid (by omega)
  have h1 : ¬(Char.ofNat n).toNat ≤ 0x7f := by omega
  have h2 : (Char.ofNat n).toNat ≤ 0x7ff := by omega
  refine ((if_neg h1).trans (if_pos h2)).trans ?_
  change [UInt8.ofNat ((Char.ofNat n).toNat / 64 % 0x20 + 0xc0), UInt8.ofNat ((Char.ofNat n).toNat % 0x40 + 0x80)] = _
  rw [hn, @ofNat_eq b _ (by omega), @ofNat_eq b1 _ (by omega)]

theorem encodeChar_three {b b1 b2 : UInt8} {n : Nat} (hb : 0xe0 ≤ b.toNat ∧ b.toNat < 0xf0)
    (hlow : 0x80 ≤ b1.toNat) (hhigh : b1.toNat ≤ 0xbf) (hfirst : b.toNat = 0xe0 → 0xa0 ≤ b1.toNat)
    (hsurrogate : b.toNat = 0xed → b1.toNat ≤ 0x9f) (hlow2 : 0x80 ≤ b2.toNat) (hhigh2 : b2.toNat ≤ 0xbf)
    (hvalue : n = ((b.toNat - 0xe0) * 64 + (b1.toNat - 0x80)) * 64 + (b2.toNat - 0x80)) :
    String.utf8EncodeChar (Char.ofNat n) = [b, b1, b2] := by
  have hn : (Char.ofNat n).toNat = n := toNat_ofNat_of_valid (by omega)
  have h2 : ¬(Char.ofNat n).toNat ≤ 0x7ff := by omega
  have h1 : ¬(Char.ofNat n).toNat ≤ 0x7f := by omega
  have h3 : (Char.ofNat n).toNat ≤ 0xffff := by omega
  refine ((if_neg h1).trans ((if_neg h2).trans (if_pos h3))).trans ?_
  change [UInt8.ofNat ((Char.ofNat n).toNat / 4096 % 0x10 + 0xe0),
    UInt8.ofNat ((Char.ofNat n).toNat / 64 % 0x40 + 0x80), UInt8.ofNat ((Char.ofNat n).toNat % 0x40 + 0x80)] = _
  rw [hn, @ofNat_eq b _ (by omega), @ofNat_eq b1 _ (by omega), @ofNat_eq b2 _ (by omega)]

theorem encodeChar_four {b b1 b2 b3 : UInt8} {n : Nat} (hb : 0xf0 ≤ b.toNat ∧ b.toNat < 0xf5)
    (hlow : 0x80 ≤ b1.toNat) (hhigh : b1.toNat ≤ 0xbf) (hfirst : b.toNat = 0xf0 → 0x90 ≤ b1.toNat)
    (hlast : b.toNat = 0xf4 → b1.toNat ≤ 0x8f) (hlow2 : 0x80 ≤ b2.toNat) (hhigh2 : b2.toNat ≤ 0xbf)
    (hlow3 : 0x80 ≤ b3.toNat) (hhigh3 : b3.toNat ≤ 0xbf)
    (hvalue : n = (((b.toNat - 0xf0) * 64 + (b1.toNat - 0x80)) * 64 + (b2.toNat - 0x80)) * 64 +
      (b3.toNat - 0x80)) :
    String.utf8EncodeChar (Char.ofNat n) = [b, b1, b2, b3] := by
  have hn : (Char.ofNat n).toNat = n := toNat_ofNat_of_valid (by omega)
  have h3 : ¬(Char.ofNat n).toNat ≤ 0xffff := by omega
  have h2 : ¬(Char.ofNat n).toNat ≤ 0x7ff := by omega
  have h1 : ¬(Char.ofNat n).toNat ≤ 0x7f := by omega
  refine ((if_neg h1).trans ((if_neg h2).trans (if_neg h3))).trans ?_
  change [UInt8.ofNat ((Char.ofNat n).toNat / 262144 % 0x08 + 0xf0),
    UInt8.ofNat ((Char.ofNat n).toNat / 4096 % 0x40 + 0x80), UInt8.ofNat ((Char.ofNat n).toNat / 64 % 0x40 + 0x80),
    UInt8.ofNat ((Char.ofNat n).toNat % 0x40 + 0x80)] = _
  rw [hn, @ofNat_eq b _ (by omega), @ofNat_eq b1 _ (by omega), @ofNat_eq b2 _ (by omega),
    @ofNat_eq b3 _ (by omega)]

/-- The least value of a tail that has a range of its own. -/
theorem narrowed_low {b b1 key low : UInt8} (hkey : (if b = key then low else 0x80).toNat ≤ b1.toNat)
    (hlow : 0x80 ≤ low.toNat) : 0x80 ≤ b1.toNat ∧ (b.toNat = key.toNat → low.toNat ≤ b1.toNat) := by
  split at hkey
  · exact ⟨Nat.le_trans hlow hkey, fun _ => hkey⟩
  · next hne => exact ⟨hkey, fun he => absurd (UInt8.toNat_inj.mp he) hne⟩

theorem narrowed_high {b b1 key high : UInt8} (hkey : b1.toNat ≤ (if b = key then high else 0xbf).toNat)
    (hhigh : high.toNat ≤ 0xbf) : b1.toNat ≤ 0xbf ∧ (b.toNat = key.toNat → b1.toNat ≤ high.toNat) := by
  split at hkey
  · exact ⟨Nat.le_trans hkey hhigh, fun _ => hkey⟩
  · next hne => exact ⟨hkey, fun he => absurd (UInt8.toNat_inj.mp he) hne⟩

/-- A character is read from its own encoding alone. -/
theorem encodeChar_of_readChar {b : UInt8} {bs rest : List UInt8} {c : Char} (h : readChar b bs = .ok (c, rest)) :
    b :: bs = String.utf8EncodeChar c ++ rest := by
  obtain ⟨lead, n, hlead, htails, rfl⟩ := readChar_eq_ok h
  rcases lead_cases hlead with ⟨hb, rfl⟩ | ⟨hb, rfl⟩ | ⟨hb, rfl⟩ | ⟨hb, rfl⟩
  · obtain ⟨rfl, rfl⟩ := readTails_zero_eq_ok htails
    rw [encodeChar_one hb]
    rfl
  · obtain ⟨b1, tail, rfl, hlow, hhigh, htails⟩ := readTails_succ_eq_ok htails
    obtain ⟨hn, rfl⟩ := readTails_zero_eq_ok htails
    rw [encodeChar_two hb hlow hhigh hn]
    rfl
  · obtain ⟨b1, tail, rfl, hlow, hhigh, htails⟩ := readTails_succ_eq_ok htails
    obtain ⟨b2, tail, rfl, hlow2, hhigh2, htails⟩ := readTails_succ_eq_ok htails
    obtain ⟨hn, rfl⟩ := readTails_zero_eq_ok htails
    obtain ⟨hlow, hfirst⟩ := narrowed_low hlow (by decide)
    obtain ⟨hhigh, hsurrogate⟩ := narrowed_high hhigh (by decide)
    rw [encodeChar_three hb hlow hhigh hfirst hsurrogate hlow2 hhigh2 hn]
    rfl
  · obtain ⟨b1, tail, rfl, hlow, hhigh, htails⟩ := readTails_succ_eq_ok htails
    obtain ⟨b2, tail, rfl, hlow2, hhigh2, htails⟩ := readTails_succ_eq_ok htails
    obtain ⟨b3, tail, rfl, hlow3, hhigh3, htails⟩ := readTails_succ_eq_ok htails
    obtain ⟨hn, rfl⟩ := readTails_zero_eq_ok htails
    obtain ⟨hlow, hfirst⟩ := narrowed_low hlow (by decide)
    obtain ⟨hhigh, hlast⟩ := narrowed_high hhigh (by decide)
    rw [encodeChar_four hb hlow hhigh hfirst hlast hlow2 hhigh2 hlow3 hhigh3 hn]
    rfl

theorem decodeFrom_eq_ok {offset : Nat} {acc cs : List Char} {bs : List UInt8}
    (h : decodeFrom offset acc bs = .ok cs) :
    ∃ ds, cs = acc.reverse ++ ds ∧ bs = ds.flatMap String.utf8EncodeChar := by
  match bs with
  | [] =>
      rw [decodeFrom] at h
      cases h
      exact ⟨[], (List.append_nil _).symm, rfl⟩
  | b :: bs =>
      rw [decodeFrom] at h
      split at h
      · next c rest hread =>
          obtain ⟨ds, rfl, hrest⟩ := decodeFrom_eq_ok h
          refine ⟨c :: ds, ?_, ?_⟩
          · rw [List.reverse_cons, List.append_assoc, List.singleton_append]
          · rw [encodeChar_of_readChar hread, hrest, List.flatMap_cons]
      · cases h
termination_by bs.length
decreasing_by exact Nat.lt_succ_of_le (readChar_length ‹_›)

theorem decode_eq_ok_iff {bs : List UInt8} {s : String} : decode bs = .ok s ↔ bs = encode s := by
  constructor
  · intro h
    rw [decode] at h
    cases hcs : decodeFrom 0 [] bs with
    | error fault =>
        rw [hcs] at h
        cases h
    | ok cs =>
        rw [hcs] at h
        cases h
        obtain ⟨ds, rfl, hbs⟩ := decodeFrom_eq_ok hcs
        rw [hbs, encode, String.toList_ofList]
  · rintro rfl
    exact decode_encode s

end Lexing.Text.Utf8
