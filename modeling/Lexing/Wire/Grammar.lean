import Lexing.Diagnostic
import Lexing.Text.Utf8
import Lexing.Token
import Lexing.Wire.BigEndian
import Lexing.Wire.Item
import Lexing.Wire.Opcode

/-! The grammar of messages: which bytes stand for which items, values, rows and lists. A size or a number may take
any of its forms, not only the shortest. -/

namespace Lexing.Wire
open BigEndian (bytes capacity unsigned)

/-- What stands after a first byte to tell a size. -/
inductive Size.Told : Size → Nat → List UInt8 → Prop
  | here {n} : Told (.here n) n []
  | after {width n} : n < capacity width → Told (.after width) n (bytes width n)

/-- The first bytes that announce a size, each with the place where the size stands. -/
abbrev Forms := List (UInt8 × Size)

namespace Forms

/-- The sizes below `limit`, each a first byte of its own from `base` on. -/
def small (base limit : Nat) : Forms := (List.range limit).map fun n => (UInt8.ofNat (base + n), .here n)

def natural : Forms :=
  small 0x00 0x80 ++ [(0xcc, .after 1), (0xcd, .after 2), (0xce, .after 4), (0xcf, .after 8)]

def str : Forms := small 0xa0 0x20 ++ [(0xd9, .after 1), (0xda, .after 2), (0xdb, .after 4)]

def bin : Forms := [(0xc4, .after 1), (0xc5, .after 2), (0xc6, .after 4)]

def ext : Forms :=
  [(0xd4, .here 1), (0xd5, .here 2), (0xd6, .here 4), (0xd7, .here 8), (0xd8, .here 16),
    (0xc7, .after 1), (0xc8, .after 2), (0xc9, .after 4)]

def array : Forms := small 0x90 0x10 ++ [(0xdc, .after 2), (0xdd, .after 4)]

def map : Forms := small 0x80 0x10 ++ [(0xde, .after 2), (0xdf, .after 4)]

end Forms

/-- The first bytes of signed numbers, with the width of the number. -/
def signedForms : List (UInt8 × Nat) := [(0xd0, 1), (0xd1, 2), (0xd2, 4), (0xd3, 8)]

def floatForms : List (UInt8 × Nat) := [(0xca, 4), (0xcb, 8)]

inductive Header (forms : Forms) (n : Nat) : List UInt8 → Prop
  | mk {first size xs} : (first, size) ∈ forms → size.Told n xs → Header forms n (first :: xs)

/-- The bytes of one item. Those of an array or a map are its header alone. -/
inductive Spells : Item → List UInt8 → Prop
  | natural {n xs} : Header Forms.natural n xs → Spells (.int n) xs
  | negative {k : Nat} : k < 0x20 → Spells (.int ((k : Int) - 0x20)) [UInt8.ofNat (0xe0 + k)]
  | signed {first width n} : (first, width) ∈ signedForms → -(capacity width : Int) ≤ 2 * n →
      2 * n < capacity width → Spells (.int n) (first :: bytes width (unsigned width n))
  | nil : Spells .nil [0xc0]
  | bool {b} : b = 0xc2 ∨ b = 0xc3 → Spells .bool [b]
  | float {first width xs} : (first, width) ∈ floatForms → xs.length = width → Spells .float (first :: xs)
  | str {xs payload} : Header Forms.str payload.length xs → Spells (.str payload) (xs ++ payload)
  | bin {xs payload} : Header Forms.bin payload.length xs → Spells .bin (xs ++ payload)
  | ext {xs type payload} : Header Forms.ext payload.length xs → Spells .ext (xs ++ type :: payload)
  | array {n xs} : Header Forms.array n xs → Spells (.array n) xs
  | map {n xs} : Header Forms.map n xs → Spells (.map n) xs

/-- Whether an item is a value by itself. -/
def Item.IsScalar : Item → Prop
  | array _ => False
  | map _ => False
  | _ => True

/-- So many values one after another that nest no deeper than `depth`. An entry of a map is two values, and an
array or a map that holds nothing needs no depth. -/
inductive Values : (depth count : Nat) → List UInt8 → Prop
  | done {depth} : Values depth 0 []
  | scalar {depth count item xs ys} : item.IsScalar → Spells item xs → Values depth count ys →
      Values depth (count + 1) (xs ++ ys)
  | empty {depth count xs ys} : Header Forms.array 0 xs ∨ Header Forms.map 0 xs → Values depth count ys →
      Values depth (count + 1) (xs ++ ys)
  | array {depth count n xs ys zs} : Header Forms.array n xs → Values depth n ys → Values (depth + 1) count zs →
      Values (depth + 1) (count + 1) (xs ++ (ys ++ zs))
  | map {depth count n xs ys zs} : Header Forms.map n xs → Values depth (2 * n) ys →
      Values (depth + 1) count zs → Values (depth + 1) (count + 1) (xs ++ (ys ++ zs))

inductive Items : List Item → List UInt8 → Prop
  | nil : Items [] []
  | cons {item items xs ys} : Spells item xs → Items items ys → Items (item :: items) (xs ++ ys)

/-- An array that begins with the items. Any values may follow them in it. -/
inductive Row (depth : Nat) (items : List Item) : List UInt8 → Prop
  | mk {count xs ys zs} : Header Forms.array count xs → items.length ≤ count → Items items ys →
      Values depth (count - items.length) zs → Row depth items (xs ++ (ys ++ zs))

inductive Rows (depth : Nat) : List (List Item) → List UInt8 → Prop
  | nil : Rows depth [] []
  | cons {items rows xs ys} : Row depth items xs → Rows depth rows ys → Rows depth (items :: rows) (xs ++ ys)

/-- An array of rows and nothing after it. -/
inductive Message (depth : Nat) (rows : List (List Item)) : List UInt8 → Prop
  | mk {xs ys} : Header Forms.array rows.length xs → Rows depth rows ys → Message depth rows (xs ++ ys)

def textItem (s : String) : Item := .str (Text.Utf8.encode s)

def indexItem : Option Int → Item
  | some n => .int n
  | none => .nil

end Lexing.Wire

namespace Lexing
open Wire (Item textItem indexItem)

def Token.items (t : Token) : List Item :=
  [textItem t.kind.name, textItem t.text, .int t.start.line, .int t.start.column]

def Diagnostic.items (d : Diagnostic) : List Item :=
  [.int d.kind.code, .int d.offset, .int d.start.line, .int d.start.column, indexItem d.lastToken]

end Lexing
