/-! Positions in a text: a line and a column, both counted from one. -/

namespace Lexing

/-- A line and a column. A text has no position below one; a record made elsewhere may hold any integers. -/
structure Position where
  line : Int
  column : Int
deriving DecidableEq, Inhabited

namespace Position

def start : Position := ⟨1, 1⟩

def right (p : Position) : Position := ⟨p.line, p.column + 1⟩

/-- The offset of the last line feed of a text, and -1 where there is none. -/
def lastLineFeed (cs : List Char) : Int :=
  match cs.reverse.findIdx? (· = '\n') with
  | some k => cs.length - 1 - k
  | none => -1

/-- The position after a text that begins at `p`, in one move: the line feeds are counted, and the last of
them restarts the column. -/
def jump (p : Position) (cs : List Char) : Position :=
  let lineFeeds := cs.count '\n'
  if lineFeeds = 0 then ⟨p.line, p.column + cs.length⟩
  else ⟨p.line + lineFeeds, cs.length - lastLineFeed cs⟩

/-- The position after one character. No character but the line feed starts a line. -/
def after (p : Position) (c : Char) : Position :=
  if c = '\n' then ⟨p.line + 1, 1⟩ else p.right

/-- The position after a text that begins at `p`, character by character. -/
def advance (p : Position) (cs : List Char) : Position := cs.foldl after p

@[simp] theorem advance_nil (p : Position) : p.advance [] = p := rfl

@[simp] theorem advance_cons (p : Position) (c : Char) (cs : List Char) :
    p.advance (c :: cs) = (p.after c).advance cs := rfl

theorem advance_append (p : Position) (cs ds : List Char) :
    p.advance (cs ++ ds) = (p.advance cs).advance ds := List.foldl_append

theorem after_lineFeed (p : Position) : p.after '\n' = ⟨p.line + 1, 1⟩ := if_pos rfl

theorem after_of_ne {c : Char} (p : Position) (h : c ≠ '\n') : p.after c = p.right := if_neg h

end Position
end Lexing
