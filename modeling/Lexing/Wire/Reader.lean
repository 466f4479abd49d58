import Lexing.Wire.BigEndian
import Lexing.Wire.Failure
import Lexing.Wire.Opcode

/-! Reading items, one after another, from the bytes of a message. -/

namespace Lexing.Wire

/-- The bytes not read yet, and the offset of the first of them. -/
structure Cursor where
  offset : Nat
  rest : List UInt8

/-- Reads a value and moves past it. -/
abbrev Reader (α : Type) := Cursor → Except Failure (α × Cursor)

def take (n : Nat) : Reader (List UInt8) := fun c =>
  let bs := c.rest.take n
  if bs.length = n then .ok (bs, ⟨c.offset + n, c.rest.drop n⟩) else .error .truncated

def readNat (width : Nat) : Reader Nat := fun c => do
  let (bs, c) ← take width c
  return (BigEndian.value bs, c)

def readSize : Size → Reader Nat
  | .here n => fun c => .ok (n, c)
  | .after width => readNat width

/-- Reads what an opcode announces. An extension has a byte for its own type before its payload. -/
def Opcode.read : Opcode → Reader Item
  | int n => fun c => .ok (.int n, c)
  | unsigned width => fun c => do
      let (n, c) ← readNat width c
      return (.int n, c)
  | signed width => fun c => do
      let (n, c) ← readNat width c
      return (.int (BigEndian.signed width n), c)
  | nil => fun c => .ok (.nil, c)
  | bool => fun c => .ok (.bool, c)
  | float width => fun c => do
      let (_, c) ← take width c
      return (.float, c)
  | str size => fun c => do
      let (n, c) ← readSize size c
      let (bs, c) ← take n c
      return (.str bs, c)
  | bin size => fun c => do
      let (n, c) ← readSize size c
      let (_, c) ← take n c
      return (.bin, c)
  | ext size => fun c => do
      let (n, c) ← readSize size c
      let (_, c) ← take (n + 1) c
      return (.ext, c)
  | array size => fun c => do
      let (n, c) ← readSize size c
      return (.array n, c)
  | map size => fun c => do
      let (n, c) ← readSize size c
      return (.map n, c)

/-- Reads one item: its header and, unless it is an array or a map, all of it. -/
def readItem : Reader Item := fun c =>
  match c.rest with
  | [] => .error .truncated
  | b :: rest =>
      match Opcode.ofByte? b with
      | none => .error (.invalidOpcode c.offset)
      | some op => op.read ⟨c.offset + 1, rest⟩

/-- Reads the rows from `row` on, so many of them, after those in `acc`. -/
def readMany {α : Type} (read : Nat → Reader α) (row : Nat) (acc : Array α) : Nat → Reader (List α)
  | 0, c => .ok (acc.toList, c)
  | n + 1, c => do
      let (a, c) ← read row c
      readMany read (row + 1) (acc.push a) n c

end Lexing.Wire
