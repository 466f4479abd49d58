/-! The first bytes of MessagePack items. -/

namespace Lexing.Wire

/-- Where the size of an item stands: in its first byte, or in a number of so many bytes after it. -/
inductive Size
  | here (n : Nat)
  | after (width : Nat)
deriving DecidableEq

/-- What a first byte announces. Widths are in bytes. -/
inductive Opcode
  | int (n : Int)
  | unsigned (width : Nat)
  | signed (width : Nat)
  | nil
  | bool
  | float (width : Nat)
  | str (size : Size)
  | bin (size : Size)
  | ext (size : Size)
  | array (size : Size)
  | map (size : Size)
deriving DecidableEq

namespace Opcode

/-- The bytes from `c0` to `df` have a meaning each, but for `c1`, which has none. -/
def ofMiddle? (b : UInt8) : Option Opcode :=
  match b with
  | 0xc0 => some nil
  | 0xc2 => some bool
  | 0xc3 => some bool
  | 0xc4 => some (bin (.after 1))
  | 0xc5 => some (bin (.after 2))
  | 0xc6 => some (bin (.after 4))
  | 0xc7 => some (ext (.after 1))
  | 0xc8 => some (ext (.after 2))
  | 0xc9 => some (ext (.after 4))
  | 0xca => some (float 4)
  | 0xcb => some (float 8)
  | 0xcc => some (unsigned 1)
  | 0xcd => some (unsigned 2)
  | 0xce => some (unsigned 4)
  | 0xcf => some (unsigned 8)
  | 0xd0 => some (signed 1)
  | 0xd1 => some (signed 2)
  | 0xd2 => some (signed 4)
  | 0xd3 => some (signed 8)
  | 0xd4 => some (ext (.here 1))
  | 0xd5 => some (ext (.here 2))
  | 0xd6 => some (ext (.here 4))
  | 0xd7 => some (ext (.here 8))
  | 0xd8 => some (ext (.here 16))
  | 0xd9 => some (str (.after 1))
  | 0xda => some (str (.after 2))
  | 0xdb => some (str (.after 4))
  | 0xdc => some (array (.after 2))
  | 0xdd => some (array (.after 4))
  | 0xde => some (map (.after 2))
  | 0xdf => some (map (.after 4))
  | _ => none

/-- What a byte announces where an item begins. Outside the middle it holds a small number, positive or negative,
or a small size itself. -/
def ofByte? (b : UInt8) : Option Opcode :=
  if b < 0x80 then some (int b.toNat)
  else if b < 0x90 then some (map (.here (b.toNat - 0x80)))
  else if b < 0xa0 then some (array (.here (b.toNat - 0x90)))
  else if b < 0xc0 then some (str (.here (b.toNat - 0xa0)))
  else if b < 0xe0 then ofMiddle? b
  else some (int ((b.toNat : Int) - 0x100))

/-- No byte but `c1` is refused. -/
theorem ofByte?_eq_none_iff (b : UInt8) : ofByte? b = none ↔ b = 0xc1 := by
  obtain ⟨⟨⟨n, hn⟩⟩⟩ := b
  revert n
  decide +kernel

end Opcode
end Lexing.Wire
