import Lexing.Proofs.Text.Utf8RoundTrip
import Lexing.Proofs.Wire.Consumption
import Mathlib.Algebra.Group.Int.Defs
import Mathlib.Algebra.Group.Nat.Defs

/-! What is written for one item is consumed for it, in each of the forms that its size may ask for. -/

namespace Lexing.Wire
open BigEndian (bytes capacity unsigned)

/-- The integers that a message can hold: the signed ones of eight bytes and the unsigned ones. -/
def InRange (n : Int) : Prop := -2 ^ 63 ≤ n ∧ n ≤ 2 ^ 64 - 1

instance (n : Int) : Decidable (InRange n) := inferInstanceAs (Decidable (_ ∧ _))

/-- What is written for a value that `fits` is consumed for it; for another value the complaint is about an
integer. -/
inductive Carries {α : Type} (read : Reader α) (fits : Prop) (a : α) : Written → Prop
  | written {bs : List UInt8} (hfits : fits) (h : Consumes read bs a) : Carries read fits a (.ok bs)
  | refused (hfits : ¬fits) : Carries read fits a (.error .integerOutOfRange)

namespace Carries

variable {α β : Type} {read : Reader α} {read' : Reader β} {fits fits' : Prop} {a : α} {b : β} {w : Written}

theorem imp (h : Carries read fits a w) (himp : ∀ bs, Consumes read bs a → Consumes read' bs b) :
    Carries read' fits b w := by
  cases h with
  | written hfits h => exact .written hfits (himp _ h)
  | refused hfits => exact .refused hfits

theorem congr (h : Carries read fits a w) (hiff : fits ↔ fits') : Carries read fits' a w := by
  rwa [propext hiff] at h

/-- A value is carried as a part of another once the rest of the other is, behind the bytes of the part. -/
theorem bind {next : List UInt8 → Written} (h : Carries read fits a w)
    (hnext : ∀ xs, Consumes read xs a → Carries read' fits' b (next xs)) :
    Carries read' (fits ∧ fits') b (w >>= next) := by
  cases h with
  | written hfits h =>
      apply (hnext _ h).congr
      exact (and_iff_right hfits).symm
  | refused hfits =>
      apply refused
      exact fun hboth => hfits hboth.1

end Carries

theorem carries_numbered {first : UInt8} {width n : Nat} {op : Opcode} {item : Item} {fits : Prop}
    (hfits : fits) (hfirst : Opcode.ofByte? first = some op) (h : Consumes op.read (bytes width n) item) :
    Carries readItem fits item (.ok (numbered first width n)) :=
  .written hfits (consumes_item hfirst h)

theorem inRange_natural_iff {m : Nat} : InRange m ↔ m < capacity 8 := by
  have h8 : capacity 8 = 2 ^ 64 := rfl
  constructor
  · intro h
    have hle := h.2
    omega
  · intro h
    constructor
    · omega
    · omega

theorem carries_writeInt_natural (m : Nat) : Carries readItem (InRange m) (.int m) (writeInt m) := by
  have hrange {width : Nat} (hwidth : capacity width ≤ capacity 8) (h : m < capacity width) : InRange m :=
    inRange_natural_iff.mpr (Nat.lt_of_lt_of_le h hwidth)
  rw [writeInt, if_pos (Int.natCast_nonneg m), Int.toNat_natCast]
  dsimp only
  split
  · next h =>
      apply Carries.written
      · exact inRange_natural_iff.mpr (Nat.lt_trans h (by decide))
      · exact consumes_item (ofByte?_of_small m h) fun _ _ => rfl
  split
  · next h => exact carries_numbered (hrange (by decide) h) rfl (consumes_unsigned h)
  split
  · next h => exact carries_numbered (hrange (by decide) h) rfl (consumes_unsigned h)
  split
  · next h => exact carries_numbered (hrange (by decide) h) rfl (consumes_unsigned h)
  split
  · next h => exact carries_numbered (hrange (by decide) h) rfl (consumes_unsigned h)
  · next h =>
      apply Carries.refused
      rwa [inRange_natural_iff]

/-- A negative number of five bits is the whole of its byte. -/
theorem bytes_one_unsigned {n : Int} (hneg : n < 0) (hlow : -0x20 ≤ n) :
    ∃ k < 0x20, bytes 1 (unsigned 1 n) = [UInt8.ofNat (0xe0 + k)] ∧ (k : Int) - 0x20 = n := by
  have h1 : capacity 1 = 0x100 := rfl
  have hu := @unsigned_of_negative 1 n hneg (by omega)
  refine ⟨unsigned 1 n - 0xe0, by omega, ?_, by omega⟩
  have hk : 0xe0 + (unsigned 1 n - 0xe0) = unsigned 1 n := by omega
  rw [hk]
  rfl

theorem carries_writeInt_negative {n : Int} (hneg : n < 0) :
    Carries readItem (InRange n) (.int n) (writeInt n) := by
  have h8 : capacity 8 = 2 ^ 64 := rfl
  have hsigned {first : UInt8} {width : Nat} (hwidth : capacity width ≤ capacity 8)
      (hfirst : Opcode.ofByte? first = some (.signed width)) (hlow : -(capacity width : Int) ≤ 2 * n) :
      Carries readItem (InRange n) (.int n) (.ok (numbered first width (unsigned width n))) :=
    carries_numbered ⟨by omega, by omega⟩ hfirst (consumes_signed hneg hlow)
  rw [writeInt, if_neg (Int.not_le.mpr hneg)]
  split
  · next h =>
      obtain ⟨k, hk, hbytes, hn⟩ := bytes_one_unsigned hneg h
      have hbyte := ofByte?_of_negative k hk
      rw [hn] at hbyte
      rw [hbytes]
      apply Carries.written
      · exact ⟨by omega, by omega⟩
      · exact consumes_item hbyte fun _ _ => rfl
  split
  · next h => exact hsigned (by decide) rfl (by change -0x100 ≤ 2 * n; omega)
  split
  · next h => exact hsigned (by decide) rfl (by change -0x10000 ≤ 2 * n; omega)
  split
  · next h => exact hsigned (by decide) rfl (by change -0x100000000 ≤ 2 * n; omega)
  split
  · next h => exact hsigned (by decide) rfl (by change -0x10000000000000000 ≤ 2 * n; omega)
  · next h =>
      apply Carries.refused
      intro hin
      exact h hin.1

theorem carries_writeInt (n : Int) : Carries readItem (InRange n) (.int n) (writeInt n) := by
  cases n with
  | ofNat m => exact carries_writeInt_natural m
  | negSucc m => exact carries_writeInt_negative (Int.negSucc_lt_zero m)

/-- A text is written behind the header for the number of its bytes. -/
theorem carries_writeText {s : String} (h : s.utf8ByteSize < 2 ^ 32) :
    Carries readItem True (.str (Text.Utf8.encode s)) (writeText s) := by
  have hnumbered {first : UInt8} {width : Nat} (hfirst : Opcode.ofByte? first = some (.str (.after width)))
      (hn : (Text.Utf8.encode s).length < capacity width) :
      Carries readItem True (.str (Text.Utf8.encode s))
        (.ok (numbered first width (Text.Utf8.encode s).length ++ Text.Utf8.encode s)) :=
    .written trivial (consumes_item hfirst (consumes_str (consumes_readNat hn)))
  rw [← Text.Utf8.length_encode] at h
  rw [writeText, textHeader]
  split
  · next hn =>
      apply Carries.written trivial
      exact consumes_item (ofByte?_of_text _ hn) (consumes_str (consumes_here _))
  split
  · next hn => exact hnumbered rfl hn
  split
  · next hn => exact hnumbered rfl hn
  split
  · next hn => exact hnumbered rfl hn
  · next hn => exact absurd h hn

theorem carries_arrayHeader {n : Nat} (h : n < 2 ^ 32) : Carries readItem True (.array n) (arrayHeader n) := by
  rw [arrayHeader]
  split
  · next hn =>
      apply Carries.written trivial
      exact consumes_item (ofByte?_of_array n hn) (consumes_array (consumes_here n))
  split
  · next hn => exact carries_numbered trivial rfl (consumes_array (consumes_readNat hn))
  split
  · next hn => exact carries_numbered trivial rfl (consumes_array (consumes_readNat hn))
  · next hn => exact absurd h hn

end Lexing.Wire
