import Lexing.Position

/-! What a scan reports beside its tokens. -/

namespace Lexing

inductive Diagnostic.Kind
  | unrecognizedCharacter | unterminatedString
deriving DecidableEq, Inhabited

/-- Where something went wrong: the offset of the character in the text, its position, and the index of the
last token before it or, for a literal left open, of the literal itself. -/
structure Diagnostic where
  kind : Diagnostic.Kind
  offset : Int
  start : Position
  lastToken : Option Int
deriving DecidableEq, Inhabited

namespace Diagnostic.Kind

def all : List Kind := [unrecognizedCharacter, unterminatedString]

/-- The number that stands for the kind in a written record. -/
def code : Kind → Int
  | unrecognizedCharacter => 1
  | unterminatedString => 2

def ofCode? (n : Int) : Option Kind := all.find? (·.code == n)

@[simp] theorem ofCode?_code (k : Kind) : ofCode? k.code = some k := by cases k <;> decide

theorem ofCode?_eq_some_iff {n : Int} {k : Kind} : ofCode? n = some k ↔ n = k.code := by
  constructor
  · intro h
    have h' := List.find?_some h
    exact (beq_iff_eq.mp h').symm
  · rintro rfl
    exact ofCode?_code k

end Diagnostic.Kind
end Lexing
