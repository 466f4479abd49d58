import Lexing.Text.Quoted
import Lexing.Text.Utf8
import Lexing.Wire.Item

/-! Why bytes are refused, and how that is told. -/

namespace Lexing.Wire

inductive Expected
  | array | text | integer | integerOrNull
deriving DecidableEq

def Expected.name : Expected → String
  | array => "array"
  | text => "str"
  | integer => "int"
  | integerOrNull => "int | null"

/-- The way to a place: the row in the list, then the field in the row. The list itself is at `[]`. -/
abbrev Path := List Nat

def Path.suffix : Path → String
  | [] => ""
  | p => " - at `$" ++ String.join (p.map fun i => "[" ++ toString i ++ "]") ++ "`"

/-- The first thing wrong with a message, in the order of its bytes. -/
inductive Failure
  | truncated
  | invalidOpcode (offset : Nat)
  | trailing (offset : Nat)
  | tooDeep
  | notUtf8 (fault : Text.Utf8.Fault)
  | mismatch (path : Path) (expected : Expected) (got : ItemType)
  | tooShort (path : Path) (least got : Nat)
  | unknownName (path : Path) (name : String)
  | unknownCode (path : Path) (code : Int)
deriving DecidableEq

/-- What is wrong: the bytes themselves, what they stand for, a text among them, or how deep they nest. -/
inductive Failure.Kind
  | decoding | validation | unicode | recursion
deriving DecidableEq

def Failure.kind : Failure → Kind
  | truncated | invalidOpcode _ | trailing _ => .decoding
  | tooDeep => .recursion
  | notUtf8 _ => .unicode
  | mismatch .. | tooShort .. | unknownName .. | unknownCode .. => .validation

def reasonPhrase : Text.Utf8.Reason → String
  | .invalidStart => "invalid start byte"
  | .invalidContinuation => "invalid continuation byte"
  | .unexpectedEnd => "unexpected end of data"

/-- One byte is shown; of several, only where they stand. -/
def faultMessage (f : Text.Utf8.Fault) : String :=
  let place :=
    if f.length = 1 then
      "byte 0x" ++ String.ofList (Text.hexDigits 2 f.lead.toNat) ++ " in position " ++
        toString f.offset
    else "bytes in position " ++ toString f.offset ++ "-" ++ toString (f.offset + f.length - 1)
  "'utf-8' codec can't decode " ++ place ++ ": " ++ reasonPhrase f.reason

/-- What is told of a failure. `shown` decides which characters of a name beyond ASCII stand for themselves. -/
def Failure.message (shown : Char → Bool) : Failure → String
  | truncated => "Input data was truncated"
  | invalidOpcode n =>
      "MessagePack data is malformed: invalid opcode '\\xc1' (byte " ++ toString n ++ ")"
  | trailing n => "MessagePack data is malformed: trailing characters (byte " ++ toString n ++ ")"
  | tooDeep => "maximum recursion depth exceeded while deserializing an object"
  | notUtf8 fault => faultMessage fault
  | mismatch path expected got =>
      "Expected `" ++ expected.name ++ "`, got `" ++ got.name ++ "`" ++ path.suffix
  | tooShort path least got =>
      "Expected `array` of at least length " ++ toString least ++ ", got " ++ toString got ++
        path.suffix
  | unknownName path name =>
      "Invalid enum value " ++ Text.quote shown name ++ path.suffix
  | unknownCode path code => "Invalid enum value " ++ toString code ++ path.suffix

end Lexing.Wire
