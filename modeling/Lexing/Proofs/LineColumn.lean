import Lexing.Position
import Mathlib.Data.List.Induction

/-! Lines and columns by counting. Moving past a text in one jump is moving past it character by character, and
the position of an offset is told by the line feeds before it alone. -/

namespace Lexing.Position

/-- The position of an offset of a text: the line feeds before it, and the distance from the last of them. -/
def ofOffset (cs : List Char) (o : Nat) : Position :=
  ⟨1 + (cs.take o).count '\n', o - lastLineFeed (cs.take o)⟩

theorem lastLineFeed_concat (cs : List Char) (c : Char) :
    lastLineFeed (cs ++ [c]) = if c = '\n' then (cs.length : Int) else lastLineFeed cs := by
  unfold lastLineFeed
  rw [List.reverse_concat, List.findIdx?_cons]
  by_cases h : c = '\n'
  · simp [h]
  · simp only [h, decide_false, Bool.false_eq_true, if_false, List.length_append, List.length_singleton]
    cases cs.reverse.findIdx? (· = '\n') with
    | none => rfl
    | some k =>
        simp only [Option.map_some]
        omega

theorem lastLineFeed_of_count_eq_zero {cs : List Char} (h : cs.count '\n' = 0) :
    lastLineFeed cs = -1 := by
  have hn : '\n' ∉ cs := List.count_eq_zero.mp h
  have hf : cs.reverse.findIdx? (· = '\n') = none := by
    rw [List.findIdx?_eq_none_iff]
    intro c hc
    have : c ≠ '\n' := fun e => hn (e ▸ List.mem_reverse.mp hc)
    simpa using this
  rw [lastLineFeed, hf]

theorem jump_of_count_eq_zero {cs : List Char} (p : Position) (h : cs.count '\n' = 0) :
    p.jump cs = ⟨p.line, p.column + cs.length⟩ := if_pos h

theorem jump_of_count_ne_zero {cs : List Char} (p : Position) (h : cs.count '\n' ≠ 0) :
    p.jump cs = ⟨p.line + cs.count '\n', cs.length - lastLineFeed cs⟩ := if_neg h

theorem line_jump (p : Position) (cs : List Char) : (p.jump cs).line = p.line + cs.count '\n' := by
  by_cases h : cs.count '\n' = 0
  · rw [jump_of_count_eq_zero p h, h]
    exact (Int.add_zero _).symm
  · rw [jump_of_count_ne_zero p h]

/-- A jump past one more character is one more step. -/
theorem jump_concat (p : Position) (cs : List Char) (c : Char) :
    p.jump (cs ++ [c]) = (p.jump cs).after c := by
  by_cases hc : c = '\n'
  · subst hc
    have hn : (cs ++ ['\n']).count '\n' = cs.count '\n' + 1 := by simp
    rw [jump_of_count_ne_zero p (by omega), after_lineFeed, line_jump, lastLineFeed_concat, hn]
    simp only [if_true, List.length_append, List.length_singleton, mk.injEq]
    omega
  · have hn : (cs ++ [c]).count '\n' = cs.count '\n' := by simp [hc]
    have hlen : ((cs ++ [c]).length : Int) = cs.length + 1 := by simp
    rw [after_of_ne _ hc, right]
    by_cases h : cs.count '\n' = 0
    · rw [jump_of_count_eq_zero p (hn.trans h), jump_of_count_eq_zero p h, hlen, Int.add_assoc]
    · have hcol : (cs.length : Int) + 1 - lastLineFeed cs = cs.length - lastLineFeed cs + 1 := by omega
      rw [jump_of_count_ne_zero p (hn ▸ h), jump_of_count_ne_zero p h, lastLineFeed_concat, if_neg hc, hn,
        hlen, hcol]

theorem jump_eq_advance (p : Position) (cs : List Char) : p.jump cs = p.advance cs := by
  induction cs using List.reverseRecOn with
  | nil =>
      rw [jump_of_count_eq_zero p rfl]
      exact congrArg (mk p.line) (Int.add_zero _)
  | append_singleton cs c ih =>
      rw [jump_concat, ih, advance_append]
      rfl

/-- Walking up to an offset leads to its position. -/
theorem advance_take (cs : List Char) {o : Nat} (h : o ≤ cs.length) :
    start.advance (cs.take o) = ofOffset cs o := by
  have hlen : (cs.take o).length = o := List.length_take_of_le h
  rw [← jump_eq_advance]
  by_cases hn : (cs.take o).count '\n' = 0
  · rw [jump_of_count_eq_zero _ hn, ofOffset, lastLineFeed_of_count_eq_zero hn, hn, hlen]
    simp only [start, mk.injEq]
    omega
  · rw [jump_of_count_ne_zero _ hn, hlen]
    rfl

example : ofOffset ['a', '\n', '\n', 'b'] 3 = ⟨3, 1⟩ := by decide

end Lexing.Position
