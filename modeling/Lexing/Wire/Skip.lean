import Lexing.Wire.Reader

/-! Skipping whole values of any kind, without a look at their texts. -/

namespace Lexing.Wire

def skipMany (skip : Cursor → Except Failure Cursor) : Nat → Cursor → Except Failure Cursor
  | 0, c => .ok c
  | n + 1, c => do skipMany skip n (← skip c)

/-- Skips one value that nests no deeper than `depth`. What holds nothing needs no depth. -/
def skip : (depth : Nat) → Cursor → Except Failure Cursor
  | 0, c => do
      let (item, c) ← readItem c
      if item.inside = 0 then .ok c else .error .tooDeep
  | depth + 1, c => do
      let (item, c) ← readItem c
      skipMany (skip depth) item.inside c

end Lexing.Wire
