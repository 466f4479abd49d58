/-! A text in quotes, with escapes for what would end it early or show nothing. -/

namespace Lexing.Text

/-- The lowercase hexadecimal digit of a number below sixteen. -/
def hexDigit (d : Nat) : Char := if d < 10 then Char.ofNat (48 + d) else Char.ofNat (87 + d)

/-- The last digits of `n`, the most significant first. -/
def hexDigits : (width : Nat) → (n : Nat) → List Char
  | 0, _ => []
  | width + 1, n => hexDigits width (n / 16) ++ [hexDigit (n % 16)]

/-- A character by its code point, in the shortest of three fixed widths. -/
def hexEscape (c : Char) : List Char :=
  if c.toNat < 0x100 then '\\' :: 'x' :: hexDigits 2 c.toNat
  else if c.toNat < 0x10000 then '\\' :: 'u' :: hexDigits 4 c.toNat
  else '\\' :: 'U' :: hexDigits 8 c.toNat

/-- One character between the delimiters `q`. `shown` decides for the characters beyond ASCII. -/
def quoteChar (shown : Char → Bool) (q c : Char) : List Char :=
  if c = q ∨ c = '\\' then ['\\', c]
  else if c = '\t' then ['\\', 't']
  else if c = '\n' then ['\\', 'n']
  else if c = '\x0d' then ['\\', 'r']
  else if c.toNat < 0x20 ∨ c.toNat = 0x7f then hexEscape c
  else if c.toNat < 0x7f ∨ shown c then [c]
  else hexEscape c

/-- Single quotes, or double ones for a text that holds single quotes alone. -/
def delimiter (cs : List Char) : Char :=
  if '\x27' ∈ cs ∧ '\x22' ∉ cs then '\x22' else '\x27'

def quote (shown : Char → Bool) (s : String) : String :=
  let q := delimiter s.toList
  String.ofList (q :: s.toList.flatMap (quoteChar shown q) ++ [q])

theorem length_hexDigits (width n : Nat) : (hexDigits width n).length = width := by
  induction width generalizing n with
  | zero => rfl
  | succ width ih => simp [hexDigits, ih]

theorem toList_quote (shown : Char → Bool) (s : String) :
    (quote shown s).toList =
      delimiter s.toList :: s.toList.flatMap (quoteChar shown (delimiter s.toList)) ++
        [delimiter s.toList] := String.toList_ofList

end Lexing.Text
