import Lexing.Extent
import Mathlib.Algebra.Group.Nat.Even
import Mathlib.Order.Bounds.Basic

/-! Where a literal closes, told by its delimiters alone. A scan walks on from the opening delimiter and passes over
what each escape protects; the delimiter where it stops is the first one with an even number of escapes before it. -/

namespace Lexing
open Alphabet

namespace Literal

/-- How many escapes stand at the end of a text. -/
def trailingEscapes (cs : List Char) : Nat := (cs.reverse.takeWhile (· = escape)).length

/-- Whether the text of a literal keeps the character behind it from closing the literal. An escape that is the
delimiter itself protects nothing. -/
def isProtected (q : Char) (cs : List Char) : Bool := q ≠ escape && trailingEscapes cs % 2 = 1

/-- What stands at an index of the rest closes the literal, of which some text is passed already. -/
def ClosesAt (q : Char) (passed rest : List Char) (i : Nat) : Prop :=
  rest[i]? = some q ∧ isProtected q (passed ++ rest.take i) = false

theorem trailingEscapes_concat (cs : List Char) (c : Char) :
    trailingEscapes (cs ++ [c]) = if c = escape then trailingEscapes cs + 1 else 0 := by
  rw [trailingEscapes, List.reverse_concat, List.takeWhile_cons]
  by_cases hc : c = escape
  · simp only [hc, decide_true, if_true, List.length_cons, trailingEscapes]
  · simp only [hc, decide_false, Bool.false_eq_true, if_false, List.length_nil]

theorem isProtected_eq_false_iff {q : Char} {cs : List Char} :
    isProtected q cs = false ↔ (q ≠ escape → Even (trailingEscapes cs)) := by
  rw [isProtected, Nat.even_iff]
  by_cases hq : q = escape
  · simp [hq]
  · simp [hq]

/-- Behind a character that does not close the literal, the flag of the scan tells whether the next one is protected. -/
theorem isProtected_concat {q c : Char} {passed : List Char} (h : ¬(c = q ∧ isProtected q passed = false)) :
    isProtected q (passed ++ [c]) = (!isProtected q passed && c == escape) := by
  by_cases hq : q = escape
  · have hnone (cs : List Char) : isProtected q cs = false := by
      rw [isProtected_eq_false_iff]
      exact fun hne => absurd hq hne
    have hc : c ≠ escape := fun hc => h ⟨hc.trans hq.symm, hnone passed⟩
    rw [hnone, hnone, beq_false_of_ne hc, Bool.and_false]
  · by_cases hc : c = escape
    · have hparity : decide ((trailingEscapes passed + 1) % 2 = 1) = !decide (trailingEscapes passed % 2 = 1) := by
        rw [← decide_not]
        exact decide_eq_decide.mpr (by omega)
      simp only [isProtected, trailingEscapes_concat, hc, if_true, hq, ne_eq, not_false_eq_true, decide_true,
        Bool.true_and, beq_self_eq_true, Bool.and_true, hparity]
    · simp [isProtected, trailingEscapes_concat, hc]

theorem closingFrom_cons {q c : Char} {passed rest : List Char} (n : Nat)
    (h : ¬(c = q ∧ isProtected q passed = false)) :
    closingFrom q n (isProtected q passed) (c :: rest) =
      closingFrom q (n + 1) (isProtected q (passed ++ [c])) rest := by
  rw [isProtected_concat h]
  cases hflag : isProtected q passed with
  | true => rfl
  | false =>
      have hc : c ≠ q := fun hc => h ⟨hc, hflag⟩
      rw [closingFrom, if_neg hc]
      rfl

theorem closesAt_zero_iff {q c : Char} {passed rest : List Char} :
    ClosesAt q passed (c :: rest) 0 ↔ c = q ∧ isProtected q passed = false := by
  simp [ClosesAt]

theorem closesAt_succ_iff {q c : Char} {passed rest : List Char} {i : Nat} :
    ClosesAt q passed (c :: rest) (i + 1) ↔ ClosesAt q (passed ++ [c]) rest i := by
  simp [ClosesAt]

/-- The outcome of a scan: the first index that closes the literal, counted on from `n`, or none. -/
inductive FirstClosing (q : Char) (n : Nat) (passed rest : List Char) : Option Nat → Prop
  | closed {i} : IsLeast {i | ClosesAt q passed rest i} i → FirstClosing q n passed rest (some (n + i + 1))
  | stillOpen : (∀ i, ¬ClosesAt q passed rest i) → FirstClosing q n passed rest none

theorem FirstClosing.cons {q c : Char} {n : Nat} {passed rest : List Char} {closing : Option Nat}
    (hc : ¬ClosesAt q passed (c :: rest) 0) (h : FirstClosing q (n + 1) (passed ++ [c]) rest closing) :
    FirstClosing q n passed (c :: rest) closing := by
  cases h with
  | @closed i hi =>
      have hcount : n + 1 + i + 1 = n + (i + 1) + 1 := by omega
      rw [hcount]
      refine .closed ⟨closesAt_succ_iff.mpr hi.1, ?_⟩
      intro j hj
      cases j with
      | zero => exact absurd hj hc
      | succ j => exact Nat.succ_le_succ (hi.2 (closesAt_succ_iff.mp hj))
  | stillOpen hnone =>
      apply FirstClosing.stillOpen
      intro j hj
      cases j with
      | zero => exact hc hj
      | succ j => exact hnone j (closesAt_succ_iff.mp hj)

/-- With its flag set by what it has passed, a scan finds the first index that closes the literal. -/
theorem firstClosing_closingFrom (q : Char) (n : Nat) (passed rest : List Char) :
    FirstClosing q n passed rest (closingFrom q n (isProtected q passed) rest) := by
  induction rest generalizing n passed with
  | nil =>
      have hnone : closingFrom q n (isProtected q passed) [] = none := by
        cases isProtected q passed <;> rfl
      rw [hnone]
      apply FirstClosing.stillOpen
      rintro i ⟨hi, -⟩
      cases hi
  | cons c rest ih =>
      by_cases hc : c = q ∧ isProtected q passed = false
      · obtain ⟨rfl, hflag⟩ := hc
        rw [hflag, closingFrom, if_pos rfl]
        exact .closed (i := 0) ⟨closesAt_zero_iff.mpr ⟨rfl, hflag⟩, fun _ _ => Nat.zero_le _⟩
      · rw [closingFrom_cons n hc]
        exact (ih (n + 1) (passed ++ [c])).cons fun h => hc (closesAt_zero_iff.mp h)

theorem firstClosing_closing? (q : Char) (rest : List Char) : FirstClosing q 0 [] rest (closing? q rest) := by
  have h := firstClosing_closingFrom q 0 [] rest
  have hflag : isProtected q [] = false := isProtected_eq_false_iff.mpr fun _ => Even.zero
  rwa [hflag] at h

end Literal

namespace Extent
open Literal (trailingEscapes ClosesAt FirstClosing)

/-- Where the literal that opens at `pos` may close: at its delimiter, further on, with an even number of escapes of
the literal directly before. If the delimiter is the escape itself, these do not count. -/
structure Closes (cs : List Char) (pos c : Nat) : Prop where
  after : pos < c
  delimiter : ∃ q, cs[pos]? = some q ∧ cs[c]? = some q
  unprotected : cs[pos]? ≠ some escape → Even (trailingEscapes ((cs.take c).drop (pos + 1)))

theorem closes_iff_getElem? {cs : List Char} {pos c : Nat} : Closes cs pos c ↔
    pos < c ∧ (cs[pos]?.isSome ∧ cs[c]? = cs[pos]?) ∧
      (cs[pos]? ≠ some escape → Even (trailingEscapes ((cs.take c).drop (pos + 1)))) := by
  constructor
  · rintro ⟨hafter, ⟨q, hq, hc⟩, heven⟩
    exact ⟨hafter, ⟨Option.isSome_of_eq_some hq, hc.trans hq.symm⟩, heven⟩
  · rintro ⟨hafter, ⟨hsome, hc⟩, heven⟩
    obtain ⟨q, hq⟩ := Option.isSome_iff_exists.mp hsome
    exact ⟨hafter, ⟨q, hq, hc.trans hq⟩, heven⟩

instance (cs : List Char) (pos c : Nat) : Decidable (Closes cs pos c) := decidable_of_iff _ closes_iff_getElem?.symm

theorem closes_iff {cs : List Char} {pos : Nat} (h : pos < cs.length) {c : Nat} :
    Closes cs pos c ↔ ∃ i, c = pos + 1 + i ∧ ClosesAt cs[pos] [] (cs.drop (pos + 1)) i := by
  have hat : cs[pos]? = some cs[pos] := List.getElem?_eq_getElem h
  have hindex (i : Nat) : ClosesAt cs[pos] [] (cs.drop (pos + 1)) i ↔ cs[pos + 1 + i]? = some cs[pos] ∧
      (cs[pos] ≠ escape → Even (trailingEscapes ((cs.take (pos + 1 + i)).drop (pos + 1)))) := by
    rw [ClosesAt, Literal.isProtected_eq_false_iff, List.nil_append, List.getElem?_drop, List.take_drop]
  constructor
  · rintro ⟨hafter, ⟨q, hq, hc⟩, heven⟩
    obtain rfl : cs[pos] = q := Option.some.inj (hat.symm.trans hq)
    obtain ⟨i, rfl⟩ := Nat.exists_eq_add_of_le hafter
    refine ⟨i, rfl, (hindex i).mpr ⟨hc, fun hne => heven ?_⟩⟩
    rw [hat]
    exact fun he => hne (Option.some.inj he)
  · rintro ⟨i, rfl, hi⟩
    obtain ⟨hc, heven⟩ := (hindex i).mp hi
    refine ⟨by omega, ⟨_, hat, hc⟩, fun hne => heven fun he => hne ?_⟩
    rw [hat, he]

/-- The two ways in which a literal ends. -/
theorem literal?_cases {cs : List Char} {pos : Nat} (h : pos < cs.length) :
    (∃ c, IsLeast {c | Closes cs pos c} c ∧ literal? cs pos = some (c + 1, true)) ∨
      (∀ c, ¬Closes cs pos c) ∧ literal? cs pos = some (cs.length, false) := by
  have hfirst := Literal.firstClosing_closing? cs[pos] (cs.drop (pos + 1))
  rw [literal?, List.drop_eq_getElem_cons h]
  dsimp only
  generalize Literal.closing? cs[pos] (cs.drop (pos + 1)) = closing at hfirst
  cases hfirst with
  | @closed i hi =>
      refine .inl ⟨pos + 1 + i, ⟨(closes_iff h).mpr ⟨i, rfl, hi.1⟩, ?_⟩, ?_⟩
      · intro c hc
        obtain ⟨j, rfl, hj⟩ := (closes_iff h).mp hc
        exact Nat.add_le_add_left (hi.2 hj) _
      · rw [Nat.zero_add]
        rfl
  | stillOpen hnone =>
      refine .inr ⟨?_, rfl⟩
      intro c hc
      obtain ⟨i, -, hi⟩ := (closes_iff h).mp hc
      exact hnone i hi

theorem Closes.lt_length {cs : List Char} {pos c : Nat} (h : Closes cs pos c) : c < cs.length := by
  obtain ⟨q, -, hc⟩ := h.delimiter
  exact (List.getElem?_eq_some_iff.mp hc).1

/-- A literal ends behind the first place where it may close, and with the text where there is none. -/
theorem literal?_eq_of_closes {cs : List Char} {pos : Nat} (h : pos < cs.length) :
    (∀ c, IsLeast {c | Closes cs pos c} c → literal? cs pos = some (c + 1, true)) ∧
    ((∀ c, ¬Closes cs pos c) → literal? cs pos = some (cs.length, false)) ∧
    ∃ stop closed, literal? cs pos = some (stop, closed) ∧ pos < stop ∧ stop ≤ cs.length := by
  rcases literal?_cases h with ⟨c, hc, hliteral⟩ | ⟨hnone, hliteral⟩
  · refine ⟨?_, ?_, c + 1, true, hliteral, ?_, hc.1.lt_length⟩
    · intro d hd
      rw [hd.unique hc]
      exact hliteral
    · intro hnone
      exact absurd hc.1 (hnone c)
    · exact Nat.lt_succ_of_lt hc.1.after
  · refine ⟨?_, fun _ => hliteral, cs.length, false, hliteral, h, Nat.le_refl _⟩
    intro d hd
    exact absurd hd.1 (hnone d)

theorem isLeast_closes {cs : List Char} {pos c : Nat} (h : Closes cs pos c) (hbefore : ∀ d < c, ¬Closes cs pos d) :
    IsLeast {c | Closes cs pos c} c :=
  ⟨h, fun d hd => Nat.not_lt.mp fun hlt => hbefore d hlt hd⟩

/-- Three escapes before a delimiter leave the literal open, two more before another one close it; and an escape that
opens a literal is closed by the next one. -/
theorem literal?_behind_escapes : 1 < "x'\\\\\\'\\\\'y".length ∧
    literal? "x'\\\\\\'\\\\'y".toList 1 = some (9, true) ∧ literal? "\\'\\\\".toList 0 = some (3, true) := by
  have hquote : IsLeast {c | Closes "x'\\\\\\'\\\\'y".toList 1 c} 8 := isLeast_closes (by decide) (by decide)
  have hescape : IsLeast {c | Closes "\\'\\\\".toList 0 c} 2 := isLeast_closes (by decide) (by decide)
  refine ⟨by decide, ?_, ?_⟩
  · exact (literal?_eq_of_closes (by decide)).1 8 hquote
  · exact (literal?_eq_of_closes (by decide)).1 2 hescape

end Extent
end Lexing
