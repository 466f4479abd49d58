/-! UTF-8, read strictly: each character in its shortest form, no surrogates, nothing above U+10FFFF. -/

namespace Lexing.Text.Utf8

def encode (s : String) : List UInt8 := s.toList.flatMap String.utf8EncodeChar

/-- What a lead byte announces: the bits it carries, the number of bytes after it, and the range of the first
of these. The others are any continuation byte. -/
structure Lead where
  bits : Nat
  tails : Nat
  low : UInt8
  high : UInt8
deriving DecidableEq

/-- The narrowed ranges rule out longer forms, surrogates and numbers above the last code point. -/
def Lead.ofByte? (b : UInt8) : Option Lead :=
  if b < 0x80 then some ⟨b.toNat, 0, 0x80, 0xbf⟩
  else if b < 0xc2 then none
  else if b < 0xe0 then some ⟨b.toNat - 0xc0, 1, 0x80, 0xbf⟩
  else if b < 0xf0 then
    some ⟨b.toNat - 0xe0, 2, if b = 0xe0 then 0xa0 else 0x80, if b = 0xed then 0x9f else 0xbf⟩
  else if b < 0xf5 then
    some ⟨b.toNat - 0xf0, 3, if b = 0xf0 then 0x90 else 0x80, if b = 0xf4 then 0x8f else 0xbf⟩
  else none

inductive Reason
  | invalidStart | invalidContinuation | unexpectedEnd
deriving DecidableEq

/-- Bytes that begin no character: the offset of the first of them, how many belong together, the first, and
what is wrong with them. -/
structure Fault where
  offset : Nat
  length : Nat
  lead : UInt8
  reason : Reason
deriving DecidableEq

/-- Reads the bytes after a lead on to `value`. A failure tells how many bytes of the character, of which
`seen` were read before, are sound. -/
def readTails (value : Nat) (low high : UInt8) :
    (owed seen : Nat) → List UInt8 → Except (Nat × Reason) (Nat × List UInt8)
  | 0, _, bs => .ok (value, bs)
  | _ + 1, seen, [] => .error (seen, .unexpectedEnd)
  | owed + 1, seen, b :: bs =>
      if low ≤ b ∧ b ≤ high then
        readTails (value * 64 + (b.toNat - 0x80)) 0x80 0xbf owed (seen + 1) bs
      else .error (seen, .invalidContinuation)

def readChar (b : UInt8) (bs : List UInt8) : Except (Nat × Reason) (Char × List UInt8) :=
  match Lead.ofByte? b with
  | none => .error (1, .invalidStart)
  | some lead => do
      let (value, bs) ← readTails lead.bits lead.low lead.high lead.tails 1 bs
      return (Char.ofNat value, bs)

theorem readTails_length {value : Nat} {low high : UInt8} {owed seen n : Nat} {bs rest : List UInt8}
    (h : readTails value low high owed seen bs = .ok (n, rest)) : rest.length ≤ bs.length := by
  induction owed generalizing value low high seen bs with
  | zero =>
      simp only [readTails, Except.ok.injEq, Prod.mk.injEq] at h
      exact h.2 ▸ Nat.le_refl _
  | succ owed ih =>
      cases bs with
      | nil => simp [readTails] at h
      | cons b bs =>
          simp only [readTails] at h
          split at h
          · exact Nat.le_succ_of_le (ih h)
          · simp at h

theorem readChar_length {b : UInt8} {bs rest : List UInt8} {c : Char}
    (h : readChar b bs = .ok (c, rest)) : rest.length ≤ bs.length := by
  unfold readChar at h
  split at h
  · simp at h
  · next lead _ =>
      cases ht : readTails lead.bits lead.low lead.high lead.tails 1 bs with
      | error e =>
          rw [ht] at h
          cases h
      | ok p =>
          rw [ht] at h
          cases h
          exact readTails_length ht

/-- Reads the characters from `offset` on, after those in `acc`, the last of them first. -/
def decodeFrom (offset : Nat) (acc : List Char) : List UInt8 → Except Fault (List Char)
  | [] => .ok acc.reverse
  | b :: bs =>
      match _read : readChar b bs with
      | .ok (c, rest) => decodeFrom (offset + c.utf8Size) (c :: acc) rest
      | .error (length, reason) => .error ⟨offset, length, b, reason⟩
termination_by bs => bs.length
decreasing_by exact Nat.lt_succ_of_le (readChar_length _read)

def decode (bs : List UInt8) : Except Fault String := String.ofList <$> decodeFrom 0 [] bs

end Lexing.Text.Utf8
