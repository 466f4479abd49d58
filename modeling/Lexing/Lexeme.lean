import Lexing.Piece

/-! The lexical grammar: which texts are tokens of which kind, whatever stands around them. The main statement is
that the front of a text is always split off as a token of its kind, as a literal left open, or as a character alone. -/

namespace Lexing
open Alphabet

/-- What may stand after the delimiter `q` without closing the literal: characters other than the delimiter and
the escape, and the escape with any character after it. -/
inductive Literal.Body (q : Char) : List Char → Prop
  | nil : Body q []
  | plain {c cs} : c ≠ q → c ≠ escape → Body q cs → Body q (c :: cs)
  | escaped {c cs} : Body q cs → Body q (escape :: c :: cs)

inductive Lexeme : Token.Kind → List Char → Prop
  | whitespace {c cs} : isBlank c → (∀ d ∈ cs, isBlank d) → Lexeme .whitespace (c :: cs)
  | comment {cs} : '\n' ∉ cs → Lexeme .comment ('/' :: '/' :: cs)
  | string {q cs} : isQuote q → Literal.Body q cs → Lexeme .string (q :: cs ++ [q])
  | number {c cs} : c.isDigit → (∀ d ∈ cs, inNumber d) → Lexeme .number (c :: cs)
  | keyword {c cs} : beginsWord c → (∀ d ∈ cs, inWord d) → String.ofList (c :: cs) ∈ keywords →
      Lexeme .keyword (c :: cs)
  | identifier {c cs} : beginsWord c → (∀ d ∈ cs, inWord d) → String.ofList (c :: cs) ∉ keywords →
      Lexeme .identifier (c :: cs)
  | pairOperator {c d} : isPairOperator c d → Lexeme .operator [c, d]
  | operator {c} : isOperator c → Lexeme .operator [c]
  | punctuation {c} : isPunctuation c → Lexeme .punctuation [c]

/-- The texts of literals that the end of the text leaves open. The last character may be an escape with
nothing after it. -/
inductive OpenLexeme : List Char → Prop
  | body {q cs} : isQuote q → Literal.Body q cs → OpenLexeme (q :: cs)
  | escape {q cs} : isQuote q → Literal.Body q cs → OpenLexeme (q :: cs ++ [escape])

namespace Literal

theorem body_of_closingFrom {q : Char} {n k : Nat} {b : Bool} {cs : List Char} (hq : q ≠ escape)
    (h : closingFrom q n b cs = some k) :
    ∃ body rest, cs = body ++ q :: rest ∧ k = n + body.length + 1 ∧
      Body q (if b then escape :: body else body) := by
  induction cs generalizing n b with
  | nil => cases b <;> simp [closingFrom] at h
  | cons c cs ih =>
      cases b with
      | true =>
          obtain ⟨body, rest, rfl, hk, hb⟩ := ih h
          exact ⟨c :: body, rest, rfl, by simp only [List.length_cons]; omega, .escaped hb⟩
      | false =>
          simp only [closingFrom] at h
          split at h
          · next hc =>
              subst hc
              simp only [Option.some.injEq] at h
              exact ⟨[], cs, rfl, by simp only [List.length_nil]; omega, .nil⟩
          · next hc =>
              obtain ⟨body, rest, rfl, hk, hb⟩ := ih h
              refine ⟨c :: body, rest, rfl, by simp only [List.length_cons]; omega, ?_⟩
              by_cases he : c = escape
              · subst he
                simpa using hb
              · have hf : (c == escape) = false := by simpa using he
                rw [hf] at hb
                exact .plain hc he hb

theorem body_of_closingFrom_eq_none {q : Char} {n : Nat} {b : Bool} {cs : List Char}
    (h : closingFrom q n b cs = none) :
    Body q (if b then escape :: cs else cs) ∨
      ∃ body, (if b then escape :: cs else cs) = body ++ [escape] ∧ Body q body := by
  induction cs generalizing n b with
  | nil =>
      cases b with
      | true => exact .inr ⟨[], rfl, .nil⟩
      | false => exact .inl .nil
  | cons c cs ih =>
      cases b with
      | true =>
          rcases ih h with hb | ⟨body, hs, hb⟩
          · exact .inl (.escaped hb)
          · have hs : cs = body ++ [escape] := hs
            subst hs
            exact .inr ⟨escape :: c :: body, rfl, .escaped hb⟩
      | false =>
          simp only [closingFrom] at h
          split at h
          · cases h
          · next hc =>
              by_cases he : c = escape
              · subst he
                exact ih h
              · have hf : (c == escape) = false := by simpa using he
                rw [hf] at h
                rcases ih h with hb | ⟨body, hs, hb⟩
                · exact .inl (.plain hc he hb)
                · have hs : cs = body ++ [escape] := hs
                  subst hs
                  exact .inr ⟨c :: body, rfl, .plain hc he hb⟩

end Literal

theorem escape_not_quote {q : Char} (h : isQuote q) : q ≠ escape := by
  rintro rfl
  exact absurd h (by decide)

def Piece.WellFormed : Piece → Prop
  | token kind text => Lexeme kind text
  | openLiteral text => OpenLexeme text
  | stray _ => True

theorem Piece.run_wellFormed {kind : Token.Kind} {p : Char → Bool} {c : Char} {cs : List Char}
    (h : (∀ d ∈ cs.takeWhile p, p d) → Lexeme kind (c :: cs.takeWhile p)) :
    (run kind p c cs).1.WellFormed :=
  h fun _ hd => List.all_eq_true.mp List.all_takeWhile _ hd

theorem Piece.literal_wellFormed {q : Char} (cs : List Char) (h : isQuote q) :
    (literal q cs).1.WellFormed := by
  unfold literal
  split
  · next n hn =>
      obtain ⟨body, rest, rfl, rfl, hb⟩ := Literal.body_of_closingFrom (escape_not_quote h) hn
      have ht : (body ++ q :: rest).take (0 + body.length + 1) = body ++ [q] := by
        rw [Nat.zero_add, List.take_append, List.take_of_length_le (by omega)]
        simp
      rw [ht]
      exact .string h hb
  · next hn =>
      rcases Literal.body_of_closingFrom_eq_none hn with hb | ⟨body, hs, hb⟩
      · exact .body h hb
      · have hs : cs = body ++ [escape] := hs
        subst hs
        exact .escape h hb

theorem Piece.single_wellFormed (c : Char) : (mark.single c).WellFormed := by
  unfold mark.single
  split
  · next h => exact .operator h
  · split
    · next h => exact .punctuation h
    · trivial

theorem Piece.mark_wellFormed (c : Char) (cs : List Char) : (mark c cs).1.WellFormed := by
  unfold mark
  split
  · split
    · next h => exact .pairOperator h
    · exact single_wellFormed c
  · exact single_wellFormed c

/-- A token split off the front of a text is of its kind by its own text alone. -/
theorem Piece.next_wellFormed (c : Char) (cs : List Char) : (next c cs).1.WellFormed := by
  unfold next
  split
  · next h => exact run_wellFormed fun hr => .whitespace h hr
  · split
    · next h =>
        obtain ⟨rfl, hc⟩ := h
        cases cs with
        | nil => simp at hc
        | cons d ds =>
            obtain rfl : d = '/' := by simpa using hc
            refine run_wellFormed fun hr => ?_
            rw [List.takeWhile_cons_of_pos (by decide)] at hr ⊢
            exact .comment fun hn => by simpa using hr _ (List.mem_cons_of_mem _ hn)
    · split
      · next h => exact literal_wellFormed cs h
      · split
        · next h => exact run_wellFormed fun hr => .number h hr
        · split
          · next h =>
              have hr : ∀ d ∈ cs.takeWhile inWord, inWord d :=
                fun _ hd => List.all_eq_true.mp List.all_takeWhile _ hd
              change Lexeme (wordKind _) _
              unfold wordKind
              split
              · next hk => exact .keyword h hr hk
              · next hk => exact .identifier h hr hk
          · exact mark_wellFormed c cs

end Lexing
