import Lexing.Piece

/-! Where a run or a literal that stands at an offset of a text ends. The pieces of a text end at the same places. -/

namespace Lexing.Extent

/-- The offset just past the run of characters in `p` that stands at `pos`. -/
def run (p : Char → Bool) (cs : List Char) (pos : Nat) : Nat :=
  pos + ((cs.drop pos).takeWhile p).length

/-- The offset just past the literal that the character at `pos` opens, and whether it closes. One that stays
open ends with the text; past the end of the text none opens. -/
def literal? (cs : List Char) (pos : Nat) : Option (Nat × Bool) :=
  match cs.drop pos with
  | [] => none
  | q :: rest =>
      match Literal.closing? q rest with
      | some n => some (pos + 1 + n, true)
      | none => some (cs.length, false)

/-- The text between two offsets. -/
def slice (cs : List Char) (start stop : Nat) : List Char := (cs.take stop).drop start

theorem slice_append (xs ys zs : List Char) :
    slice (xs ++ (ys ++ zs)) xs.length (xs.length + ys.length) = ys ∧
      (xs ++ (ys ++ zs)).drop (xs.length + ys.length) = zs := by
  rw [slice, ← List.append_assoc, ← List.length_append, List.take_left, List.drop_left, List.drop_left]
  exact ⟨rfl, rfl⟩

variable (before cs : List Char)

/-- A token made of a run ends where the run behind its first character does. -/
theorem run_eq_slice (kind : Token.Kind) (p : Char → Bool) (c : Char) :
    Piece.run kind p c cs =
      (.token kind (slice (before ++ c :: cs) before.length (run p (before ++ c :: cs) (before.length + 1))),
        (before ++ c :: cs).drop (run p (before ++ c :: cs) (before.length + 1))) := by
  have hstop : run p (before ++ c :: cs) (before.length + 1) = before.length + (c :: cs.takeWhile p).length := by
    rw [run, List.drop_length_add_append, List.drop_one, List.tail_cons, List.length_cons, Nat.add_assoc,
      Nat.add_comm 1]
  obtain ⟨htext, hrest⟩ := slice_append before (c :: cs.takeWhile p) (cs.dropWhile p)
  rw [List.cons_append, List.takeWhile_append_dropWhile] at htext hrest
  rw [hstop, htext, hrest]
  rfl

/-- A literal of a text ends at the offset of its extent, and is left open where that says so. -/
theorem literal_eq_slice (q : Char) : ∃ stop closed,
    literal? (before ++ q :: cs) before.length = some (stop, closed) ∧
      Piece.literal q cs =
        ((if closed then Piece.token .string else Piece.openLiteral) (slice (before ++ q :: cs) before.length stop),
          (before ++ q :: cs).drop stop) := by
  rw [literal?, List.drop_left, Piece.literal]
  dsimp only
  cases hclosing : Literal.closing? q cs with
  | some n =>
      have hlength : (q :: cs.take n).length = 1 + n := by
        rw [List.length_cons, List.length_take_of_le (Literal.closing?_le hclosing).2, Nat.add_comm]
      obtain ⟨htext, hrest⟩ := slice_append before (q :: cs.take n) (cs.drop n)
      rw [List.cons_append, List.take_append_drop, hlength, ← Nat.add_assoc] at htext hrest
      refine ⟨before.length + 1 + n, true, rfl, ?_⟩
      rw [htext, hrest]
      rfl
  | none =>
      obtain ⟨htext, hrest⟩ := slice_append before (q :: cs) []
      rw [List.append_nil, ← List.length_append] at htext hrest
      refine ⟨_, false, rfl, ?_⟩
      rw [htext, hrest]
      rfl

end Lexing.Extent
