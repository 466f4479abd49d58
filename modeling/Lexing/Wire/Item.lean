/-! The items of a MessagePack value, each as far as its own header and payload go. -/

namespace Lexing.Wire

/-- One item. An array or a map is only its announcement: what it holds follows as items of their own. Of the
items that no record uses, the type alone is kept. -/
inductive Item
  | int (n : Int)
  | nil
  | bool
  | float
  | str (payload : List UInt8)
  | bin
  | ext
  | array (count : Nat)
  | map (count : Nat)
deriving DecidableEq

inductive ItemType
  | int | nil | bool | float | str | bin | ext | array | map
deriving DecidableEq

namespace Item

def type : Item → ItemType
  | int _ => .int
  | nil => .nil
  | bool => .bool
  | float => .float
  | str _ => .str
  | bin => .bin
  | ext => .ext
  | array _ => .array
  | map _ => .map

/-- How many items follow as its content. An entry of a map is two. -/
def inside : Item → Nat
  | array n => n
  | map n => 2 * n
  | _ => 0

end Item

/-- The word for a type where a failure names what was found. -/
def ItemType.name : ItemType → String
  | int => "int"
  | nil => "None"
  | bool => "bool"
  | float => "float"
  | str => "str"
  | bin => "bytes"
  | ext => "ext"
  | array => "array"
  | map => "object"

end Lexing.Wire
