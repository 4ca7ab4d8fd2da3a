/-
**Writing MessagePack values.**

Every value is written in its shortest form.  An integer that is not negative is always written
unsigned.  A string whose bytes spell no text is written as binary data, since a string in the
format is text.

Main definitions:

* `StakeLedger.MsgPack.intForm`, `StakeLedger.MsgPack.strHead`, `StakeLedger.MsgPack.binHead`,
  `StakeLedger.MsgPack.arrayHead`, `StakeLedger.MsgPack.mapHead`, `StakeLedger.MsgPack.extHead` —
  the shortest heads;
* `StakeLedger.MsgPack.Value.encode` — the bytes of a value.
-/
import StakeLedger.MsgPack.Value

set_option autoImplicit false

namespace StakeLedger.MsgPack

/-! ### Heads -/

/-- The first byte `lead` and the field of `width` bytes that holds `n`. -/
def headField (lead : UInt8) (width n : Nat) : Bytes :=
  lead :: Bytes.ofNat width n

/-- The shortest form of an integer. -/
def intForm (n : Int) : Bytes :=
  if 0 ≤ n then
    if n < 0x80 then Bytes.ofInt 1 n
    else if n < 0x100 then 0xcc :: Bytes.ofInt 1 n
    else if n < 0x10000 then 0xcd :: Bytes.ofInt 2 n
    else if n < 0x100000000 then 0xce :: Bytes.ofInt 4 n
    else 0xcf :: Bytes.ofInt 8 n
  else if -0x20 ≤ n then Bytes.ofInt 1 n
  else if -0x80 ≤ n then 0xd0 :: Bytes.ofInt 1 n
  else if -0x8000 ≤ n then 0xd1 :: Bytes.ofInt 2 n
  else if -0x80000000 ≤ n then 0xd2 :: Bytes.ofInt 4 n
  else 0xd3 :: Bytes.ofInt 8 n

/-- The head of a string of `n` bytes. -/
def strHead (n : Nat) : Bytes :=
  if n < 0x20 then [UInt8.ofNat (0xa0 + n)]
  else if n < 0x100 then headField 0xd9 1 n
  else if n < 0x10000 then headField 0xda 2 n
  else headField 0xdb 4 n

/-- The head of `n` bytes of binary data. -/
def binHead (n : Nat) : Bytes :=
  if n < 0x100 then headField 0xc4 1 n
  else if n < 0x10000 then headField 0xc5 2 n
  else headField 0xc6 4 n

/-- The head of an array of `n` items. -/
def arrayHead (n : Nat) : Bytes :=
  if n < 0x10 then [UInt8.ofNat (0x90 + n)]
  else if n < 0x10000 then headField 0xdc 2 n
  else headField 0xdd 4 n

/-- The head of a map of `n` entries. -/
def mapHead (n : Nat) : Bytes :=
  if n < 0x10 then [UInt8.ofNat (0x80 + n)]
  else if n < 0x10000 then headField 0xde 2 n
  else headField 0xdf 4 n

/-- The head of `n` bytes of data of an application's own type, up to the type. -/
def extHead (n : Nat) : Bytes :=
  if n = 1 then [0xd4]
  else if n = 2 then [0xd5]
  else if n = 4 then [0xd6]
  else if n = 8 then [0xd7]
  else if n = 16 then [0xd8]
  else if n < 0x100 then headField 0xc7 1 n
  else if n < 0x10000 then headField 0xc8 2 n
  else headField 0xc9 4 n

/-! ### Values -/

/-- The head of a string: that of binary data if the bytes spell no text. -/
def textHead (bytes : Bytes) : Bytes :=
  if bytes.text?.isSome then strHead bytes.length else binHead bytes.length

mutual

/-- The bytes of a value. -/
def Value.encode : Value → Bytes
  | .nil => [0xc0]
  | .bool false => [0xc2]
  | .bool true => [0xc3]
  | .int n => intForm n
  | .float32 bits => headField 0xca 4 bits.toNat
  | .float64 bits => headField 0xcb 8 bits.toNat
  | .str bytes => textHead bytes ++ bytes
  | .bin bytes => binHead bytes.length ++ bytes
  | .array items => arrayHead items.length ++ encodeItems items
  | .map entries => mapHead entries.length ++ encodeEntries entries
  | .ext type data => extHead data.length ++ Bytes.ofInt 1 type ++ data

/-- The bytes of the items of an array, one after the other. -/
def Value.encodeItems : List Value → Bytes
  | [] => []
  | item :: rest => item.encode ++ encodeItems rest

/-- The bytes of the entries of a map, each key before its value. -/
def Value.encodeEntries : List (Value × Value) → Bytes
  | [] => []
  | (key, value) :: rest => key.encode ++ value.encode ++ encodeEntries rest

end

end StakeLedger.MsgPack
