import Lexing.Token
import Lexing.Literal

/-! The pieces of a text. Their texts, joined, are the text again. -/

namespace Lexing
open Alphabet

/-- What stands at the front of a text: a token, a literal that stays open to the end of the text, or a
character that begins no token. -/
inductive Piece
  | token (kind : Token.Kind) (text : List Char)
  | openLiteral (text : List Char)
  | stray (c : Char)

namespace Piece

def text : Piece → List Char
  | token _ cs => cs
  | openLiteral cs => cs
  | stray c => [c]

/-- The token made of `c` and the run after it of characters in `p`, and the text after it. -/
def run (kind : Token.Kind) (p : Char → Bool) (c : Char) (cs : List Char) : Piece × List Char :=
  (token kind (c :: cs.takeWhile p), cs.dropWhile p)

/-- A word is a keyword only as a whole. -/
def wordKind (word : List Char) : Token.Kind :=
  if String.ofList word ∈ keywords then .keyword else .identifier

def literal (q : Char) (cs : List Char) : Piece × List Char :=
  match Literal.closing? q cs with
  | some n => (token .string (q :: cs.take n), cs.drop n)
  | none => (openLiteral (q :: cs), [])

/-- The operator, the mark of punctuation or the stray character `c`. A pair that is an operator is not split. -/
def mark (c : Char) (cs : List Char) : Piece × List Char :=
  match cs with
  | d :: ds => if isPairOperator c d then (token .operator [c, d], ds) else (single c, d :: ds)
  | [] => (single c, [])
where
  single (c : Char) : Piece :=
    if isOperator c then token .operator [c]
    else if isPunctuation c then token .punctuation [c]
    else stray c

/-- The first piece of a text that begins with `c`, and the text after it. Two slashes are tried before any
operator: they begin a comment. -/
def next (c : Char) (cs : List Char) : Piece × List Char :=
  if isBlank c then run .whitespace isBlank c cs
  else if c = '/' ∧ cs.head? = some '/' then run .comment (· ≠ '\n') c cs
  else if isQuote c then literal c cs
  else if c.isDigit then run .number inNumber c cs
  else if beginsWord c then
    let word := c :: cs.takeWhile inWord
    (token (wordKind word) word, cs.dropWhile inWord)
  else mark c cs

theorem run_text (kind : Token.Kind) (p : Char → Bool) (c : Char) (cs : List Char) :
    (run kind p c cs).1.text ++ (run kind p c cs).2 = c :: cs := by
  simp [run, text, List.takeWhile_append_dropWhile]

theorem literal_text (q : Char) (cs : List Char) :
    (literal q cs).1.text ++ (literal q cs).2 = q :: cs := by
  unfold literal
  split <;> simp [text]

theorem text_single (c : Char) : (mark.single c).text = [c] := by
  unfold mark.single
  split
  · rfl
  · split <;> rfl

theorem mark_text (c : Char) (cs : List Char) : (mark c cs).1.text ++ (mark c cs).2 = c :: cs := by
  unfold mark
  split
  · split
    · rfl
    · simp [text_single]
  · simp [text_single]

/-- Nothing is lost between a piece and what follows it. -/
theorem next_text (c : Char) (cs : List Char) : (next c cs).1.text ++ (next c cs).2 = c :: cs := by
  unfold next
  split
  · exact run_text ..
  · split
    · exact run_text ..
    · split
      · exact literal_text ..
      · split
        · exact run_text ..
        · split
          · simp [text, List.takeWhile_append_dropWhile]
          · exact mark_text ..

theorem literal_text_ne_nil (q : Char) (cs : List Char) : (literal q cs).1.text ≠ [] := by
  unfold literal
  split <;> simp [text]

theorem mark_text_ne_nil (c : Char) (cs : List Char) : (mark c cs).1.text ≠ [] := by
  unfold mark
  split
  · split
    · simp [text]
    · simp [text_single]
  · simp [text_single]

theorem next_text_ne_nil (c : Char) (cs : List Char) : (next c cs).1.text ≠ [] := by
  unfold next
  split
  · simp [run, text]
  · split
    · simp [run, text]
    · split
      · exact literal_text_ne_nil c cs
      · split
        · simp [run, text]
        · split
          · simp [text]
          · exact mark_text_ne_nil c cs

theorem next_rest_lt (c : Char) (cs : List Char) : (next c cs).2.length < (c :: cs).length := by
  have h := congrArg List.length (next_text c cs)
  have := List.length_pos_iff.mpr (next_text_ne_nil c cs)
  rw [List.length_append] at h
  omega

end Piece

/-- Puts the pieces of a text before `acc`, the last piece first. -/
def piecesOnto (acc : List Piece) : List Char → List Piece
  | [] => acc
  | c :: cs => piecesOnto ((Piece.next c cs).1 :: acc) (Piece.next c cs).2
termination_by cs => cs.length
decreasing_by exact Piece.next_rest_lt c cs

def pieces (cs : List Char) : List Piece := (piecesOnto [] cs).reverse

theorem piecesOnto_eq (acc : List Piece) (cs : List Char) :
    piecesOnto acc cs = piecesOnto [] cs ++ acc := by
  match cs with
  | [] => simp [piecesOnto]
  | c :: cs =>
      rw [piecesOnto, piecesOnto, piecesOnto_eq (_ :: acc), piecesOnto_eq [_]]
      simp
termination_by cs.length
decreasing_by all_goals exact Piece.next_rest_lt c cs

@[simp] theorem pieces_nil : pieces [] = [] := by simp [pieces, piecesOnto]

theorem pieces_cons (c : Char) (cs : List Char) :
    pieces (c :: cs) = (Piece.next c cs).1 :: pieces (Piece.next c cs).2 := by
  rw [pieces, piecesOnto, piecesOnto_eq, List.reverse_append]
  rfl

theorem pieces_text (cs : List Char) : (pieces cs).flatMap Piece.text = cs := by
  match cs with
  | [] => simp
  | c :: cs =>
      rw [pieces_cons, List.flatMap_cons, pieces_text, Piece.next_text]
termination_by cs.length
decreasing_by exact Piece.next_rest_lt c cs

end Lexing
