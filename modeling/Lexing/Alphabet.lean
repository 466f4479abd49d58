/-! The characters and words of the language. Every table is in code point order; digits and letters are those of
ASCII. -/

namespace Lexing.Alphabet

def keywords : List String :=
  ["const", "else", "for", "function", "if", "let", "return", "var", "while"]

def pairOperators : List (Char × Char) :=
  [('!', '='), ('&', '&'), ('<', '='), ('=', '='), ('>', '='), ('|', '|')]

def operators : List Char := ['*', '+', '-', '/', '<', '=', '>']

def punctuation : List Char := ['(', ')', ',', '.', ';', '[', ']', '\x7b', '\x7d']

/-- The blanks: tab to carriage return, the byte order mark, the two line separators and every space separator.
The next-line control U+0085 and the separators U+001C to U+001F are none. -/
def blanks : List Char :=
  ['\t', '\n', '\x0b', '\x0c', '\x0d', ' ', '\u00a0', '\u1680', '\u2000', '\u2001', '\u2002',
    '\u2003', '\u2004', '\u2005', '\u2006', '\u2007', '\u2008', '\u2009', '\u200a', '\u2028',
    '\u2029', '\u202f', '\u205f', '\u3000', '\ufeff']

/-- The double and the single quote. -/
def quotes : List Char := ['\x22', '\x27']

/-- Keeps the character after it from closing a literal. -/
def escape : Char := '\\'

def isBlank (c : Char) : Bool := blanks.contains c

def isQuote (c : Char) : Bool := quotes.contains c

def isOperator (c : Char) : Bool := operators.contains c

def isPairOperator (c d : Char) : Bool := pairOperators.contains (c, d)

def isPunctuation (c : Char) : Bool := punctuation.contains c

def inNumber (c : Char) : Bool := c.isDigit || c == '.'

def beginsWord (c : Char) : Bool := c.isAlpha || c == '_'

def inWord (c : Char) : Bool := beginsWord c || c.isDigit

end Lexing.Alphabet
