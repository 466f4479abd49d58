/-! Numbers as bytes, the most significant first, and the two's complement of those that carry a sign. -/

namespace Lexing.Wire.BigEndian

/-- How many numbers so many bytes can tell apart. -/
def capacity : (width : Nat) → Nat
  | 0 => 1
  | width + 1 => 256 * capacity width

/-- The last `width` bytes of a number. -/
def bytes : (width : Nat) → (n : Nat) → List UInt8
  | 0, _ => []
  | width + 1, n => bytes width (n / 256) ++ [UInt8.ofNat n]

def value (bs : List UInt8) : Nat := bs.foldl (fun n b => n * 256 + b.toNat) 0

/-- The number that `n` stands for in two's complement of so many bytes. -/
def signed (width n : Nat) : Int :=
  if 2 * n < capacity width then n else (n : Int) - capacity width

/-- The two's complement of a number in so many bytes. -/
def unsigned (width : Nat) (n : Int) : Nat := (n % capacity width).toNat

@[simp] theorem length_bytes (width n : Nat) : (bytes width n).length = width := by
  induction width generalizing n with
  | zero => rfl
  | succ width ih => simp [bytes, ih]

theorem value_concat (bs : List UInt8) (b : UInt8) : value (bs ++ [b]) = value bs * 256 + b.toNat := by
  simp [value]

theorem value_bytes (width n : Nat) : value (bytes width n) = n % capacity width := by
  induction width generalizing n with
  | zero => simp [bytes, value, capacity, Nat.mod_one]
  | succ width ih =>
      have hb : (UInt8.ofNat n).toNat = n % 256 := UInt8.toNat_ofNat
      rw [bytes, value_concat, ih, hb, capacity, Nat.mod_mul]
      omega

theorem value_bytes_of_lt {width n : Nat} (h : n < capacity width) : value (bytes width n) = n := by
  rw [value_bytes, Nat.mod_eq_of_lt h]

theorem foldl_lt (n : Nat) (bs : List UInt8) :
    bs.foldl (fun n b => n * 256 + b.toNat) n < (n + 1) * capacity bs.length := by
  induction bs generalizing n with
  | nil => simp [capacity]
  | cons b bs ih =>
      have hb := b.toNat_lt
      have hn : n * 256 + b.toNat + 1 ≤ (n + 1) * 256 := by omega
      calc
        bs.foldl (fun n b => n * 256 + b.toNat) (n * 256 + b.toNat)
            < (n * 256 + b.toNat + 1) * capacity bs.length := ih _
        _ ≤ (n + 1) * 256 * capacity bs.length := Nat.mul_le_mul_right _ hn
        _ = (n + 1) * capacity (b :: bs).length := by
            rw [List.length_cons, capacity, Nat.mul_assoc]

theorem value_lt (bs : List UInt8) : value bs < capacity bs.length := by
  have h := foldl_lt 0 bs
  rwa [Nat.zero_add, Nat.one_mul] at h

end Lexing.Wire.BigEndian
