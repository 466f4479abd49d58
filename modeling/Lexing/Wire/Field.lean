import Lexing.Token
import Lexing.Diagnostic
import Lexing.Wire.Reader
import Lexing.Wire.Writer

/-! The fields of records. Each is one item that holds no others. -/

namespace Lexing.Wire

/-- A type whose values are each one item: how an item found at a place is judged, and how a value is written. -/
class Field (α : Type) where
  accept : Path → Item → Except Failure α
  write : α → Written

/-- Reads the item at a place and judges it. -/
def readField {α : Type} [Field α] (path : Path) : Reader α := fun c => do
  let (item, c) ← readItem c
  let a ← Field.accept path item
  return (a, c)

def acceptText (path : Path) : Item → Except Failure String
  | .str payload =>
      match Text.Utf8.decode payload with
      | .ok s => .ok s
      | .error fault => .error (.notUtf8 fault)
  | item => .error (.mismatch path .text item.type)

def acceptInt (path : Path) : Item → Except Failure Int
  | .int n => .ok n
  | item => .error (.mismatch path .integer item.type)

instance : Field String := ⟨acceptText, writeText⟩

instance : Field Int := ⟨acceptInt, writeInt⟩

instance : Field (Option Int) where
  accept
    | _, .int n => .ok (some n)
    | _, .nil => .ok none
    | path, item => .error (.mismatch path .integerOrNull item.type)
  write
    | some n => writeInt n
    | none => .ok writeNil

instance : Field Token.Kind where
  accept path item := do
    let name ← acceptText path item
    match Token.Kind.ofName? name with
    | some kind => .ok kind
    | none => .error (.unknownName path name)
  write kind := writeText kind.name

instance : Field Diagnostic.Kind where
  accept path item := do
    let code ← acceptInt path item
    match Diagnostic.Kind.ofCode? code with
    | some kind => .ok kind
    | none => .error (.unknownCode path code)
  write kind := writeInt kind.code

end Lexing.Wire
