import Lexing.Proofs.Wire.Consumption
import Lexing.Proofs.Wire.Following

/-! The forms of items. The first byte of an item announces what follows it, and an item is read in each of its
forms and in no other. -/

namespace Lexing.Wire
open BigEndian (bytes capacity signed unsigned)

/-- The first bytes of an opcode, by the forms of the items. -/
def Opcode.Leads (b : UInt8) : Opcode → Prop
  | int n => n = b.toNat ∧ (b, .here b.toNat) ∈ Forms.natural ∨ 0xe0 ≤ b.toNat ∧ n = (b.toNat : Int) - 0x100
  | unsigned width => (b, .after width) ∈ Forms.natural
  | signed width => (b, width) ∈ signedForms
  | nil => b = 0xc0
  | bool => b = 0xc2 ∨ b = 0xc3
  | float width => (b, width) ∈ floatForms
  | str size => (b, size) ∈ Forms.str
  | bin size => (b, size) ∈ Forms.bin
  | ext size => (b, size) ∈ Forms.ext
  | array size => (b, size) ∈ Forms.array
  | map size => (b, size) ∈ Forms.map

instance (b : UInt8) : (op : Opcode) → Decidable (op.Leads b)
  | .int _ => inferInstanceAs (Decidable (_ ∨ _))
  | .unsigned _ => inferInstanceAs (Decidable (_ ∈ _))
  | .signed _ => inferInstanceAs (Decidable (_ ∈ _))
  | .nil => inferInstanceAs (Decidable (_ = _))
  | .bool => inferInstanceAs (Decidable (_ ∨ _))
  | .float _ => inferInstanceAs (Decidable (_ ∈ _))
  | .str _ => inferInstanceAs (Decidable (_ ∈ _))
  | .bin _ => inferInstanceAs (Decidable (_ ∈ _))
  | .ext _ => inferInstanceAs (Decidable (_ ∈ _))
  | .array _ => inferInstanceAs (Decidable (_ ∈ _))
  | .map _ => inferInstanceAs (Decidable (_ ∈ _))

theorem Opcode.leads_of_ofByte? (b : UInt8) : ∀ op ∈ ofByte? b, op.Leads b := by
  obtain ⟨⟨⟨n, hn⟩⟩⟩ := b
  revert n
  decide +kernel

theorem unsigned_signed {width n : Nat} (h : n < capacity width) :
    unsigned width (signed width n) = n ∧ -(capacity width : Int) ≤ 2 * signed width n ∧
      2 * signed width n < capacity width := by
  rw [signed]
  split
  · next hlow =>
      have hmod : (n : Int) % (capacity width : Int) = n := Int.emod_eq_of_lt (by omega) (by omega)
      refine ⟨?_, by omega, by omega⟩
      rw [unsigned, hmod, Int.toNat_natCast]
  · next hhigh =>
      have hu := @unsigned_of_negative width (n - capacity width) (by omega) (by omega)
      omega

theorem signed_unsigned_of_bounds {width : Nat} {n : Int} (hlow : -(capacity width : Int) ≤ 2 * n)
    (hhigh : 2 * n < capacity width) :
    unsigned width n < capacity width ∧ signed width (unsigned width n) = n := by
  cases n with
  | ofNat m =>
      rw [Int.ofNat_eq_natCast] at hhigh
      have hhigh : 2 * m < capacity width := by omega
      have hmod : (m : Int) % (capacity width : Int) = m := Int.emod_eq_of_lt (by omega) (by omega)
      have hu : unsigned width m = m := by rw [unsigned, hmod, Int.toNat_natCast]
      rw [Int.ofNat_eq_natCast, hu, signed, if_pos hhigh]
      exact ⟨by omega, rfl⟩
  | negSucc m => exact signed_unsigned (Int.negSucc_lt_zero m) hlow

theorem spells_of_leads {b : UInt8} {op : Opcode} {item : Item} {bs : List UInt8} (hb : op.Leads b)
    (h : op.Tail item bs) : Spells item (b :: bs) := by
  cases op with
  | int n =>
      obtain ⟨rfl, rfl⟩ := h
      rcases hb with ⟨rfl, hmem⟩ | ⟨hle, rfl⟩
      · exact .natural (.mk hmem .here)
      · have hlt := b.toNat_lt
        have hb : UInt8.ofNat (0xe0 + (b.toNat - 0xe0)) = b := by
          rw [Nat.add_sub_of_le hle, UInt8.ofNat_toNat]
        have hn : ((b.toNat - 0xe0 : Nat) : Int) - 0x20 = b.toNat - 0x100 := by omega
        have hs := @Spells.negative (b.toNat - 0xe0) (by omega)
        rwa [hb, hn] at hs
  | unsigned width =>
      obtain ⟨n, hn, rfl, rfl⟩ := h
      exact .natural (.mk hb (.after hn))
  | signed width =>
      obtain ⟨n, hn, rfl, rfl⟩ := h
      obtain ⟨hu, hlow, hhigh⟩ := unsigned_signed hn
      have hs := Spells.signed hb hlow hhigh
      rwa [hu] at hs
  | nil =>
      obtain ⟨rfl, rfl⟩ := h
      obtain rfl := hb
      exact .nil
  | bool =>
      obtain ⟨rfl, rfl⟩ := h
      exact .bool hb
  | float width =>
      obtain ⟨rfl, hlen⟩ := h
      exact .float hb hlen
  | str size =>
      obtain ⟨xs, payload, hsize, rfl, rfl⟩ := h
      exact .str (.mk hb hsize)
  | bin size =>
      obtain ⟨xs, payload, hsize, rfl, rfl⟩ := h
      exact .bin (.mk hb hsize)
  | ext size =>
      obtain ⟨xs, type, payload, hsize, rfl, rfl⟩ := h
      exact .ext (.mk hb hsize)
  | array size =>
      obtain ⟨n, hsize, rfl⟩ := h
      exact .array (.mk hb hsize)
  | map size =>
      obtain ⟨n, hsize, rfl⟩ := h
      exact .map (.mk hb hsize)

theorem ofByte?_of_natural : ∀ form ∈ Forms.natural, Opcode.ofByte? form.1 =
    some (match form.2 with | .here n => .int n | .after width => .unsigned width) := by
  decide +kernel

theorem ofByte?_of_signed : ∀ form ∈ signedForms, Opcode.ofByte? form.1 = some (.signed form.2) := by
  decide

theorem ofByte?_of_float : ∀ form ∈ floatForms, Opcode.ofByte? form.1 = some (.float form.2) := by
  decide

theorem ofByte?_of_str : ∀ form ∈ Forms.str, Opcode.ofByte? form.1 = some (.str form.2) := by
  decide +kernel

theorem ofByte?_of_bin : ∀ form ∈ Forms.bin, Opcode.ofByte? form.1 = some (.bin form.2) := by
  decide

theorem ofByte?_of_ext : ∀ form ∈ Forms.ext, Opcode.ofByte? form.1 = some (.ext form.2) := by
  decide

theorem ofByte?_of_arrayForm : ∀ form ∈ Forms.array, Opcode.ofByte? form.1 = some (.array form.2) := by
  decide +kernel

theorem ofByte?_of_map : ∀ form ∈ Forms.map, Opcode.ofByte? form.1 = some (.map form.2) := by
  decide +kernel

/-- The bytes of an item begin with a byte that announces what follows it. -/
theorem Spells.announced {item : Item} {bs : List UInt8} (h : Spells item bs) :
    ∃ b xs op, bs = b :: xs ∧ Opcode.ofByte? b = some op ∧ op.Tail item xs := by
  cases h with
  | natural h =>
      obtain ⟨hmem, hsize⟩ := h
      cases hsize with
      | here => exact ⟨_, _, _, rfl, ofByte?_of_natural _ hmem, rfl, rfl⟩
      | after hn => exact ⟨_, _, _, rfl, ofByte?_of_natural _ hmem, _, hn, rfl, rfl⟩
  | @negative k hk =>
      refine ⟨_, _, _, rfl, ofByte?_of_negative k hk, rfl, rfl⟩
  | signed hmem hlow hhigh =>
      obtain ⟨hlt, hn⟩ := signed_unsigned_of_bounds hlow hhigh
      exact ⟨_, _, _, rfl, ofByte?_of_signed _ hmem, _, hlt, congrArg _ hn.symm, rfl⟩
  | nil => exact ⟨_, _, .nil, rfl, rfl, rfl, rfl⟩
  | bool hb =>
      rcases hb with rfl | rfl
      · exact ⟨_, _, .bool, rfl, rfl, rfl, rfl⟩
      · exact ⟨_, _, .bool, rfl, rfl, rfl, rfl⟩
  | float hmem hlen => exact ⟨_, _, _, rfl, ofByte?_of_float _ hmem, rfl, hlen⟩
  | str h =>
      obtain ⟨hmem, hsize⟩ := h
      exact ⟨_, _, _, rfl, ofByte?_of_str _ hmem, _, _, hsize, rfl, rfl⟩
  | bin h =>
      obtain ⟨hmem, hsize⟩ := h
      exact ⟨_, _, _, rfl, ofByte?_of_bin _ hmem, _, _, hsize, rfl, rfl⟩
  | ext h =>
      obtain ⟨hmem, hsize⟩ := h
      exact ⟨_, _, _, rfl, ofByte?_of_ext _ hmem, _, _, _, hsize, rfl, rfl⟩
  | array h =>
      obtain ⟨hmem, hsize⟩ := h
      exact ⟨_, _, _, rfl, ofByte?_of_arrayForm _ hmem, _, hsize, rfl⟩
  | map h =>
      obtain ⟨hmem, hsize⟩ := h
      exact ⟨_, _, _, rfl, ofByte?_of_map _ hmem, _, hsize, rfl⟩

theorem spells_cons_iff {b : UInt8} {item : Item} {bs : List UInt8} :
    Spells item (b :: bs) ↔ ∃ op, Opcode.ofByte? b = some op ∧ op.Tail item bs := by
  constructor
  · intro h
    obtain ⟨_, _, op, heq, hop, htail⟩ := h.announced
    obtain ⟨rfl, rfl⟩ := List.cons.inj heq
    exact ⟨op, hop, htail⟩
  · rintro ⟨op, hop, htail⟩
    exact spells_of_leads (Opcode.leads_of_ofByte? b op hop) htail

theorem Spells.ne_nil {item : Item} {bs : List UInt8} (h : Spells item bs) : bs ≠ [] := by
  obtain ⟨_, _, _, rfl, -⟩ := h.announced
  exact List.cons_ne_nil _ _

/-- An item is read from its own bytes alone. -/
theorem follows_readItem : Follows readItem Spells := by
  constructor
  · intro offset bs item c
    cases bs with
    | nil =>
        constructor
        · intro h
          cases h
        · rintro ⟨xs, h, hnil, -⟩
          exact absurd (List.append_eq_nil_iff.mp hnil.symm).1 h.ne_nil
    | cons b bs =>
        simp only [readItem]
        constructor
        · intro h
          split at h
          · cases h
          · next op hop =>
              obtain ⟨xs, htail, rfl, hoffset⟩ := (follows_read op).ok_iff.mp h
              refine ⟨b :: xs, spells_cons_iff.mpr ⟨op, hop, htail⟩, rfl, ?_⟩
              rw [hoffset, List.length_cons]
              omega
        · rintro ⟨xs, h, heq, hoffset⟩
          obtain ⟨b', xs, op, rfl, hop, htail⟩ := h.announced
          obtain ⟨rfl, rfl⟩ := List.cons.inj heq
          rw [hop]
          refine (follows_read op).ok_iff.mpr ⟨xs, htail, rfl, ?_⟩
          rw [hoffset, List.length_cons]
          omega
  · intro offset bs failure more h hne
    cases bs with
    | nil =>
        cases h
        exact absurd rfl hne
    | cons b bs =>
        simp only [readItem, List.cons_append] at h ⊢
        split at h
        · exact h
        · next op _ => exact (follows_read op).error_append more h hne

end Lexing.Wire
