import Lexing.Position

/-! Tokens and their kinds. -/

namespace Lexing

inductive Token.Kind
  | keyword | identifier | number | string | operator | punctuation | whitespace | comment
deriving DecidableEq, Inhabited

/-- A piece of a text, kept as it is written there, with the position of its first character. -/
structure Token where
  kind : Token.Kind
  text : String
  start : Position
deriving DecidableEq, Inhabited

namespace Token.Kind

def all : List Kind :=
  [keyword, identifier, number, string, operator, punctuation, whitespace, comment]

def name : Kind → String
  | keyword => "keyword"
  | identifier => "identifier"
  | number => "number"
  | string => "string"
  | operator => "operator"
  | punctuation => "punctuation"
  | whitespace => "whitespace"
  | comment => "comment"

def ofName? (s : String) : Option Kind := all.find? (·.name == s)

@[simp] theorem ofName?_name (k : Kind) : ofName? k.name = some k := by cases k <;> decide

theorem ofName?_eq_some_iff {s : String} {k : Kind} : ofName? s = some k ↔ s = k.name := by
  constructor
  · intro h
    have h' := List.find?_some h
    exact (beq_iff_eq.mp h').symm
  · rintro rfl
    exact ofName?_name k

end Token.Kind
end Lexing
