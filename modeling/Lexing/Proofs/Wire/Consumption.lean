import Lexing.Wire.Message

/-! Bytes that a reader consumes for a value, whatever follows them. What is written for an item is consumed for
that item. -/

namespace Lexing.Wire
open BigEndian (bytes capacity value signed unsigned)

def Consumes {α : Type} (read : Reader α) (bs : List UInt8) (a : α) : Prop :=
  ∀ offset rest, read ⟨offset, bs ++ rest⟩ = .ok (a, ⟨offset + bs.length, rest⟩)

/-- Readers one after the other consume their bytes one after the other. -/
theorem Consumes.bind {α β : Type} {read : Reader α} {next : α × Cursor → Except Failure (β × Cursor)}
    {xs ys : List UInt8} {a : α} {b : β} (h : Consumes read xs a) (hnext : Consumes (fun c => next (a, c)) ys b) :
    Consumes (fun c => read c >>= next) (xs ++ ys) b := by
  intro offset rest
  have hy := hnext (offset + xs.length) rest
  change read ⟨offset, xs ++ ys ++ rest⟩ >>= next = _
  rw [List.append_assoc, h, List.length_append, ← Nat.add_assoc]
  exact hy

theorem Consumes.map {α β : Type} {read : Reader α} {bs : List UInt8} {a : α} (f : α → β)
    (h : Consumes read bs a) : Consumes (fun c => read c >>= fun x => .ok (f x.1, x.2)) bs (f a) := by
  intro offset rest
  change read ⟨offset, bs ++ rest⟩ >>= (fun x => .ok (f x.1, x.2)) = _
  rw [h]
  rfl

theorem consumes_take (bs : List UInt8) : Consumes (take bs.length) bs bs := by
  intro offset rest
  simp only [take, List.take_left, List.drop_left, if_true]

theorem consumes_readNat {width n : Nat} (h : n < capacity width) :
    Consumes (readNat width) (bytes width n) n := by
  have ht := (consumes_take (bytes width n)).map value
  rw [BigEndian.value_bytes_of_lt h, BigEndian.length_bytes] at ht
  exact ht

theorem consumes_item {b : UInt8} {bs : List UInt8} {op : Opcode} {item : Item}
    (hb : Opcode.ofByte? b = some op) (h : Consumes op.read bs item) : Consumes readItem (b :: bs) item := by
  intro offset rest
  have hop := h (offset + 1) rest
  rw [Nat.add_right_comm] at hop
  simp only [List.cons_append, readItem, hb]
  exact hop

theorem consumes_unsigned {width n : Nat} (h : n < capacity width) :
    Consumes (Opcode.unsigned width).read (bytes width n) (.int n) := by
  have hn := (consumes_readNat h).map fun n : Nat => Item.int n
  exact hn

theorem unsigned_of_negative {width : Nat} {n : Int} (hneg : n < 0) (hlow : -(capacity width : Int) ≤ n) :
    (unsigned width n : Int) = n + capacity width := by
  have hmod : n % (capacity width : Int) = n + capacity width := by
    rw [← Int.add_emod_right]
    exact Int.emod_eq_of_lt (by omega) (by omega)
  rw [unsigned, hmod]
  exact Int.toNat_of_nonneg (by omega)

/-- The two's complement of a negative number in so many bytes stands for that number. -/
theorem signed_unsigned {width : Nat} {n : Int} (hneg : n < 0) (hlow : -(capacity width : Int) ≤ 2 * n) :
    unsigned width n < capacity width ∧ signed width (unsigned width n) = n := by
  have hu := @unsigned_of_negative width n hneg (by omega)
  constructor
  · omega
  · rw [signed, if_neg (by omega), hu]
    omega

theorem consumes_signed {width : Nat} {n : Int} (hneg : n < 0) (hlow : -(capacity width : Int) ≤ 2 * n) :
    Consumes (Opcode.signed width).read (bytes width (unsigned width n)) (.int n) := by
  obtain ⟨hlt, hn⟩ := signed_unsigned hneg hlow
  have h := (consumes_readNat hlt).map fun n => Item.int (signed width n)
  rw [hn] at h
  exact h

theorem ofByte?_of_small : ∀ m < 0x80, Opcode.ofByte? (UInt8.ofNat m) = some (.int m) := by
  decide +kernel

theorem ofByte?_of_negative : ∀ k < 0x20,
    Opcode.ofByte? (UInt8.ofNat (0xe0 + k)) = some (.int ((k : Int) - 0x20)) := by
  decide +kernel

theorem ofByte?_of_text : ∀ n < 0x20, Opcode.ofByte? (UInt8.ofNat (0xa0 + n)) = some (.str (.here n)) := by
  decide +kernel

theorem ofByte?_of_array : ∀ n < 0x10, Opcode.ofByte? (UInt8.ofNat (0x90 + n)) = some (.array (.here n)) := by
  decide +kernel

theorem consumes_nil : Consumes readItem writeNil .nil := by
  have hread : Consumes Opcode.nil.read [] .nil := by
    intro offset rest
    rfl
  exact consumes_item rfl hread

theorem consumes_here (n : Nat) : Consumes (readSize (.here n)) [] n := by
  intro offset rest
  rfl

/-- A text stands behind its size, wherever the size stands. -/
theorem consumes_str {size : Size} {header payload : List UInt8}
    (h : Consumes (readSize size) header payload.length) :
    Consumes (Opcode.str size).read (header ++ payload) (.str payload) := by
  apply h.bind
  exact (consumes_take payload).map Item.str

theorem consumes_array {size : Size} {header : List UInt8} {n : Nat} (h : Consumes (readSize size) header n) :
    Consumes (Opcode.array size).read header (.array n) :=
  h.map Item.array

end Lexing.Wire
