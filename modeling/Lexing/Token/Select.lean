import Lexing.Token

/-! Selections from a token list, and the text that a token list spells. -/

namespace Lexing.Token

def dropComments (ts : List Token) : List Token := ts.filter (·.kind ≠ .comment)

def dropWhitespace (ts : List Token) : List Token := ts.filter (·.kind ≠ .whitespace)

/-- What a parser consumes: neither comments nor whitespace. -/
def significant (ts : List Token) : List Token := dropWhitespace (dropComments ts)

def spell (ts : List Token) : String := String.join (ts.map (·.text))

theorem toList_spell (ts : List Token) : (spell ts).toList = ts.flatMap (·.text.toList) := by
  rw [spell, String.toList_join, List.flatMap_map]

theorem significant_comm (ts : List Token) :
    dropWhitespace (dropComments ts) = dropComments (dropWhitespace ts) := by
  simp only [dropWhitespace, dropComments, List.filter_filter]
  congr 1
  funext t
  exact Bool.and_comm ..

theorem dropComments_cons_of_eq {t : Token} (ts : List Token) (h : t.kind = .comment) :
    dropComments (t :: ts) = dropComments ts :=
  List.filter_cons_of_neg (by simpa using h)

theorem dropComments_cons_of_ne {t : Token} (ts : List Token) (h : t.kind ≠ .comment) :
    dropComments (t :: ts) = t :: dropComments ts :=
  List.filter_cons_of_pos (by simpa using h)

theorem dropWhitespace_cons_of_eq {t : Token} (ts : List Token) (h : t.kind = .whitespace) :
    dropWhitespace (t :: ts) = dropWhitespace ts :=
  List.filter_cons_of_neg (by simpa using h)

theorem dropWhitespace_append (ts us : List Token) :
    dropWhitespace (ts ++ us) = dropWhitespace ts ++ dropWhitespace us := List.filter_append ..

theorem significant_append (ts us : List Token) : significant (ts ++ us) = significant ts ++ significant us := by
  simp only [significant, dropComments, dropWhitespace, List.filter_append]

end Lexing.Token
