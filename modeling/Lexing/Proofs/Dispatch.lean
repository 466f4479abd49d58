import Lexing.Piece
import Mathlib.Data.Bool.AllAny

/-! Which piece a first character leads to. The classes of first characters are apart, so the branches of a scan
can be taken in any order but for one: two slashes come before a slash. -/

namespace Lexing
open Alphabet

/-- What may begin an operator or a mark of punctuation. -/
def Alphabet.beginsMark (c : Char) : Bool :=
  isOperator c || isPunctuation c || pairOperators.any (·.1 == c)

-- Each class is a list and is searched as one: characters are a finite type too, far too large for a decision.
theorem blanks_apart : ∀ c ∈ blanks,
    ¬ isQuote c ∧ ¬ c.isDigit ∧ ¬ beginsWord c ∧ ¬ beginsMark c := by
  rw [← List.all_iff_forall_prop]
  decide

theorem quotes_apart : ∀ c ∈ quotes, ¬ c.isDigit ∧ ¬ beginsWord c ∧ ¬ beginsMark c := by
  rw [← List.all_iff_forall_prop]
  decide

theorem marks_apart : ∀ c ∈ operators ++ punctuation ++ pairOperators.map (·.1),
    ¬ c.isDigit ∧ ¬ beginsWord c := by
  rw [← List.all_iff_forall_prop]
  decide

theorem punctuation_apart : ∀ c ∈ punctuation, ¬ isOperator c := by
  rw [← List.all_iff_forall_prop]
  decide

theorem punctuation_unpaired : ∀ c ∈ punctuation, c ∉ pairOperators.map (·.1) := by
  rw [← List.all_iff_forall_prop]
  decide

theorem blank_apart {c : Char} (h : isBlank c) :
    ¬ isQuote c ∧ ¬ c.isDigit ∧ ¬ beginsWord c ∧ ¬ beginsMark c :=
  blanks_apart c (List.contains_iff_mem.mp h)

theorem quote_apart {c : Char} (h : isQuote c) : ¬ c.isDigit ∧ ¬ beginsWord c ∧ ¬ beginsMark c :=
  quotes_apart c (List.contains_iff_mem.mp h)

theorem mark_apart {c : Char} (h : beginsMark c) : ¬ c.isDigit ∧ ¬ beginsWord c := by
  apply marks_apart c
  rw [beginsMark, Bool.or_eq_true, Bool.or_eq_true, List.any_eq_true] at h
  rw [List.mem_append, List.mem_append, List.mem_map]
  rcases h with (h | h) | ⟨p, hp, h⟩
  · exact .inl (.inl (List.contains_iff_mem.mp h))
  · exact .inl (.inr (List.contains_iff_mem.mp h))
  · exact .inr ⟨p, hp, beq_iff_eq.mp h⟩

theorem digit_apart {c : Char} (h : c.isDigit) : ¬ beginsWord c := by
  have hnine : c.val ≤ '9'.val := of_decide_eq_true (Bool.and_eq_true_iff.mp h).2
  intro hw
  rcases Bool.or_eq_true_iff.mp hw with ha | hu
  · rcases Bool.or_eq_true_iff.mp ha with hupper | hlower
    · have hA : 'A'.val ≤ c.val := (of_decide_eq_true hupper).1
      exact absurd (UInt32.le_trans hA hnine) (by decide)
    · have ha : 'a'.val ≤ c.val := of_decide_eq_true (Bool.and_eq_true_iff.mp hlower).1
      exact absurd (UInt32.le_trans ha hnine) (by decide)
  · obtain rfl := beq_iff_eq.mp hu
    exact absurd h (by decide)

namespace Piece

variable {c : Char} (cs : List Char)

theorem next_of_blank (h : isBlank c) : next c cs = run .whitespace isBlank c cs := if_pos h

theorem next_of_slashes : next '/' ('/' :: cs) = run .comment (· ≠ '\n') '/' ('/' :: cs) := by
  rw [next, if_neg (by decide), if_pos (by simp)]

theorem next_of_quote (h : isQuote c) : next c cs = literal c cs := by
  have hb : ¬ isBlank c := fun hb => (blank_apart hb).1 h
  have hs : ¬ (c = '/' ∧ cs.head? = some '/') := by
    rintro ⟨rfl, -⟩
    exact absurd h (by decide)
  rw [next, if_neg hb, if_neg hs, if_pos h]

theorem next_of_digit (h : c.isDigit) : next c cs = run .number inNumber c cs := by
  have hb : ¬ isBlank c := fun hb => (blank_apart hb).2.1 h
  have hs : ¬ (c = '/' ∧ cs.head? = some '/') := by
    rintro ⟨rfl, -⟩
    exact absurd h (by decide)
  have hq : ¬ isQuote c := fun hq => (quote_apart hq).1 h
  rw [next, if_neg hb, if_neg hs, if_neg hq, if_pos h]

theorem next_of_word (h : beginsWord c) :
    next c cs = (token (wordKind (c :: cs.takeWhile inWord)) (c :: cs.takeWhile inWord),
      cs.dropWhile inWord) := by
  have hb : ¬ isBlank c := fun hb => (blank_apart hb).2.2.1 h
  have hs : ¬ (c = '/' ∧ cs.head? = some '/') := by
    rintro ⟨rfl, -⟩
    exact absurd h (by decide)
  have hq : ¬ isQuote c := fun hq => (quote_apart hq).2.1 h
  have hd : ¬ c.isDigit := fun hd => digit_apart hd h
  rw [next, if_neg hb, if_neg hs, if_neg hq, if_neg hd, if_pos h]

theorem next_of_mark (h : beginsMark c) (hs : ¬ (c = '/' ∧ cs.head? = some '/')) :
    next c cs = mark c cs := by
  have hb : ¬ isBlank c := fun hb => (blank_apart hb).2.2.2 h
  have hq : ¬ isQuote c := fun hq => (quote_apart hq).2.2 h
  obtain ⟨hd, hw⟩ := mark_apart h
  rw [next, if_neg hb, if_neg hs, if_neg hq, if_neg hd, if_neg hw]

theorem next_of_pair {d : Char} (h : isPairOperator c d) : next c (d :: cs) = (token .operator [c, d], cs) := by
  have hmem : (c, d) ∈ pairOperators := List.contains_iff_mem.mp h
  have hc : beginsMark c := by
    rw [beginsMark, Bool.or_eq_true, List.any_eq_true]
    exact .inr ⟨(c, d), hmem, beq_self_eq_true c⟩
  have hs : ¬ (c = '/' ∧ (d :: cs).head? = some '/') := by
    rintro ⟨rfl, hd⟩
    obtain rfl : d = '/' := Option.some.inj hd
    exact absurd h (by decide)
  rw [next_of_mark _ hc hs, mark, if_pos h]

theorem single_of_operator (h : isOperator c) : mark.single c = token .operator [c] := if_pos h

theorem single_of_punctuation (h : isPunctuation c) : mark.single c = token .punctuation [c] := by
  have ho : ¬ isOperator c := punctuation_apart c (List.contains_iff_mem.mp h)
  rw [mark.single, if_neg ho, if_pos h]

end Piece
end Lexing
