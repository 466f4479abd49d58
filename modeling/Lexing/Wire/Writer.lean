import Lexing.Wire.BigEndian
import Lexing.Text.Utf8

/-! Writing items, each in its shortest form. -/

namespace Lexing.Wire
open BigEndian (bytes capacity unsigned)

inductive WriteError
  | integerOutOfRange
  | textTooLong
  | listTooLong
deriving DecidableEq

def WriteError.message : WriteError → String
  | integerOutOfRange => "can't serialize ints < -2**63 or > 2**64 - 1"
  | textTooLong => "Can't encode strings longer than 2**32 - 1"
  | listTooLong => "Can't encode list longer than 2**32 - 1"

abbrev Written := Except WriteError (List UInt8)

def numbered (first : UInt8) (width n : Nat) : List UInt8 := first :: bytes width n

def writeNil : List UInt8 := [0xc0]

def writeInt (n : Int) : Written :=
  if 0 ≤ n then
    let m := n.toNat
    if m < 0x80 then .ok [UInt8.ofNat m]
    else if m < capacity 1 then .ok (numbered 0xcc 1 m)
    else if m < capacity 2 then .ok (numbered 0xcd 2 m)
    else if m < capacity 4 then .ok (numbered 0xce 4 m)
    else if m < capacity 8 then .ok (numbered 0xcf 8 m)
    else .error .integerOutOfRange
  else if -0x20 ≤ n then .ok (bytes 1 (unsigned 1 n))
  else if -0x80 ≤ n then .ok (numbered 0xd0 1 (unsigned 1 n))
  else if -0x8000 ≤ n then .ok (numbered 0xd1 2 (unsigned 2 n))
  else if -0x80000000 ≤ n then .ok (numbered 0xd2 4 (unsigned 4 n))
  else if -0x8000000000000000 ≤ n then .ok (numbered 0xd3 8 (unsigned 8 n))
  else .error .integerOutOfRange

def textHeader (n : Nat) : Written :=
  if n < 0x20 then .ok [UInt8.ofNat (0xa0 + n)]
  else if n < capacity 1 then .ok (numbered 0xd9 1 n)
  else if n < capacity 2 then .ok (numbered 0xda 2 n)
  else if n < capacity 4 then .ok (numbered 0xdb 4 n)
  else .error .textTooLong

def writeText (s : String) : Written := do
  let payload := Text.Utf8.encode s
  return (← textHeader payload.length) ++ payload

def arrayHeader (n : Nat) : Written :=
  if n < 0x10 then .ok [UInt8.ofNat (0x90 + n)]
  else if n < capacity 2 then .ok (numbered 0xdc 2 n)
  else if n < capacity 4 then .ok (numbered 0xdd 4 n)
  else .error .listTooLong

end Lexing.Wire
