import Lexing.Alphabet

/-! Where a string literal ends: at the first delimiter that no escape protects. -/

namespace Lexing.Literal
open Alphabet

/-- Counts on from `n` up to and including the delimiter `q`. The flag says that the next character is
protected. A character is compared with the delimiter first, so a backslash that delimits protects nothing. -/
def closingFrom (q : Char) (n : Nat) : Bool → List Char → Option Nat
  | _, [] => none
  | true, _ :: cs => closingFrom q (n + 1) false cs
  | false, c :: cs => if c = q then some (n + 1) else closingFrom q (n + 1) (c == escape) cs

/-- The number of characters, after the opening `q`, of a literal that closes; none when it stays open. -/
def closing? (q : Char) (cs : List Char) : Option Nat := closingFrom q 0 false cs

theorem closingFrom_le {q : Char} {n k : Nat} {b : Bool} {cs : List Char}
    (h : closingFrom q n b cs = some k) : n < k ∧ k ≤ n + cs.length := by
  induction cs generalizing n b with
  | nil => cases b <;> simp [closingFrom] at h
  | cons c cs ih =>
      cases b with
      | true =>
          have := ih h
          simp only [List.length_cons]
          omega
      | false =>
          simp only [closingFrom] at h
          split at h
          · simp only [Option.some.injEq] at h
            simp only [List.length_cons]
            omega
          · have := ih h
            simp only [List.length_cons]
            omega

theorem closing?_le {q : Char} {k : Nat} {cs : List Char} (h : closing? q cs = some k) :
    0 < k ∧ k ≤ cs.length := by
  simpa using closingFrom_le h

end Lexing.Literal
