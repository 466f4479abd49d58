import Lexing.Wire.Field
import Lexing.Wire.Skip

/-! Messages: a list of records, each an array of its fields in order. A record may hold more than its fields;
what follows them is skipped. -/

namespace Lexing.Wire

/-- A type whose values are rows of a message: the number of fields, how those of a row are read, and how they
are written. -/
class Record (α : Type) where
  fields : Nat
  read : (row : Nat) → Reader α
  write : α → Written

instance : Record Token where
  fields := 4
  read row c := do
    let (kind, c) ← readField [row, 0] c
    let (text, c) ← readField [row, 1] c
    let (line, c) ← readField [row, 2] c
    let (column, c) ← readField [row, 3] c
    return (⟨kind, text, ⟨line, column⟩⟩, c)
  write t := do
    return (← Field.write t.kind) ++ (← Field.write t.text) ++ (← Field.write t.start.line) ++
      (← Field.write t.start.column)

instance : Record Diagnostic where
  fields := 5
  read row c := do
    let (kind, c) ← readField [row, 0] c
    let (offset, c) ← readField [row, 1] c
    let (line, c) ← readField [row, 2] c
    let (column, c) ← readField [row, 3] c
    let (lastToken, c) ← readField [row, 4] c
    return (⟨kind, offset, ⟨line, column⟩, lastToken⟩, c)
  write d := do
    return (← Field.write d.kind) ++ (← Field.write d.offset) ++ (← Field.write d.start.line) ++
      (← Field.write d.start.column) ++ (← Field.write d.lastToken)

def readArray (path : Path) : Reader Nat := fun c => do
  let (item, c) ← readItem c
  match item with
  | .array n => .ok (n, c)
  | item => .error (.mismatch path .array item.type)

/-- Reads one row. Its length is judged before any of its fields, and a value behind them nests no deeper than
`limit`. -/
def readRecord {α : Type} [Record α] (limit row : Nat) : Reader α := fun c => do
  let (n, c) ← readArray [row] c
  if n < Record.fields α then
    .error (.tooShort [row] (Record.fields α) n)
  else
    let (a, c) ← Record.read row c
    let c ← skipMany (skip limit) (n - Record.fields α) c
    return (a, c)

/-- The records of a message that takes up all the bytes, or the first thing wrong with them. How deep a value may
nest that is skipped is for the caller to say. -/
def decode {α : Type} [Record α] (limit : Nat) (bs : List UInt8) : Except Failure (List α) := do
  let (n, c) ← readArray [] ⟨0, bs⟩
  let (as, c) ← readMany (readRecord limit) 0 #[] n c
  if c.rest.isEmpty then .ok as else .error (.trailing c.offset)

def writeRecord {α : Type} [Record α] (a : α) : Written := do
  return (← arrayHeader (Record.fields α)) ++ (← Record.write a)

def encode {α : Type} [Record α] (as : List α) : Written := do
  let header ← arrayHeader as.length
  let rows ← as.mapM writeRecord
  return header ++ rows.flatten

end Lexing.Wire
