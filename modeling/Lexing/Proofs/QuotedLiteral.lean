import Lexing.Proofs.Splitting
import Lexing.Proofs.Text.Unquoting

/-! A quoted text is a literal. Quoting escapes the delimiter and the escape, so what it writes between the delimiters
closes no literal, and the text is scanned as one token. -/

namespace Lexing
open Alphabet

namespace Literal

variable {q : Char}

theorem Body.append {xs ys : List Char} (hxs : Body q xs) (hys : Body q ys) : Body q (xs ++ ys) := by
  induction hxs with
  | nil => exact hys
  | plain hq he _ ih => exact .plain hq he ih
  | escaped _ ih => exact .escaped ih

theorem Body.flatMap {α : Type} {f : α → List Char} (h : ∀ a, Body q (f a)) (as : List α) : Body q (as.flatMap f) := by
  induction as with
  | nil => exact .nil
  | cons a as ih =>
      rw [List.flatMap_cons]
      exact (h a).append ih

theorem body_hexDigits (hq : q = '\x22' ∨ q = '\x27') (width n : Nat) : Body q (Text.hexDigits width n) := by
  have hdigit : ∀ d < 16, Text.hexDigit d ≠ '\x22' ∧ Text.hexDigit d ≠ '\x27' ∧ Text.hexDigit d ≠ escape := by decide
  induction width generalizing n with
  | zero => exact .nil
  | succ width ih =>
      obtain ⟨hdouble, hsingle, hescape⟩ := hdigit (n % 16) (Nat.mod_lt _ (by decide))
      have hne : Text.hexDigit (n % 16) ≠ q := by rcases hq with rfl | rfl <;> assumption
      exact (ih (n / 16)).append (.plain hne hescape .nil)

/-- What stands for one character closes no literal. -/
theorem body_of_quoting {c : Char} {form : List Char} (hq : q = '\x22' ∨ q = '\x27') (h : Text.Quoting q c form) :
    Body q form := by
  cases h with
  | plain hquote hescape => exact .plain hquote hescape .nil
  | letter _ _ => exact .escaped .nil
  | digits _ _ => exact .escaped (body_hexDigits hq ..)

end Literal

theorem lexeme_quote (shown : Char → Bool) (s : String) : Lexeme .string (Text.quote shown s).toList := by
  have hq := Text.delimiter_cases s.toList
  have hquote : isQuote (Text.delimiter s.toList) := by rcases hq with h | h <;> rw [h] <;> decide
  have hbody (c : Char) : Literal.Body (Text.delimiter s.toList) (Text.quoteChar shown (Text.delimiter s.toList) c) :=
    Literal.body_of_quoting hq (Text.quoting_quoteChar shown hq c)
  rw [Text.toList_quote]
  exact .string hquote (Literal.Body.flatMap hbody s.toList)

/-- A quoted text tells which text it is, and is scanned as one literal, whichever characters are shown as they are. -/
theorem analyze_quote (shown : Char → Bool) (v w : String) :
    (Text.quote shown v = Text.quote shown w ↔ v = w) ∧
      (analyze (Text.quote shown v)).tokens = [⟨.string, Text.quote shown v, ⟨1, 1⟩⟩] ∧
      (analyze (Text.quote shown v)).diagnostics = [] := by
  have hsolid : (Piece.token .string (Text.quote shown v).toList).Solid := lexeme_quote shown v
  have hpieces := hsolid.pieces_eq
  refine ⟨Text.quote_inj, ?_, ?_⟩
  · rw [tokens_of_pieces hpieces]
    change [Token.mk .string (String.ofList (Text.quote shown v).toList) .start] = _
    rw [String.ofList_toList]
    rfl
  · rw [diagnostics_of_pieces hpieces]
    rfl

end Lexing
