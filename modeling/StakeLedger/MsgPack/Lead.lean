/-
**The first byte of a MessagePack value.**

The first byte says what kind of value follows and how its size is given: either in the byte itself
or in a field of one, two, four or eight bytes after it.  One byte, `0xc1`, is reserved.

Main definitions:

* `StakeLedger.MsgPack.Size` — where the size of a value is found;
* `StakeLedger.MsgPack.Lead` — what a first byte announces;
* `StakeLedger.MsgPack.Lead.ofByte` — the announcement of each of the 256 bytes.
-/
import StakeLedger.Bytes

set_option autoImplicit false

namespace StakeLedger.MsgPack

/-- Where the size of a value is found. -/
inductive Size
  /-- In the first byte itself. -/
  | inline (n : Nat)
  /-- In a field of `width` bytes after the first byte. -/
  | field (width : Nat)
  deriving DecidableEq, Repr

/-- What the first byte of a value announces. -/
inductive Lead
  | nil
  | reserved
  | bool (b : Bool)
  /-- An integer that the byte itself holds. -/
  | small (n : Int)
  /-- A natural number in `width` bytes. -/
  | unsigned (width : Nat)
  /-- A two's complement integer in `width` bytes. -/
  | signed (width : Nat)
  | float32
  | float64
  | str (size : Size)
  | bin (size : Size)
  /-- A type byte and as many bytes of data as `size` says. -/
  | ext (size : Size)
  | array (size : Size)
  /-- As many keys and values as `size` says. -/
  | map (size : Size)
  deriving DecidableEq, Repr

/-- The announcement of a first byte. -/
def Lead.ofByte (b : UInt8) : Lead :=
  let n := b.toNat
  if n < 0x80 then .small n
  else if n < 0x90 then .map (.inline (n - 0x80))
  else if n < 0xa0 then .array (.inline (n - 0x90))
  else if n < 0xc0 then .str (.inline (n - 0xa0))
  else if 0xe0 ≤ n then .small (n - 0x100)
  else match n with
    | 0xc0 => .nil
    | 0xc2 => .bool false
    | 0xc3 => .bool true
    | 0xc4 => .bin (.field 1)
    | 0xc5 => .bin (.field 2)
    | 0xc6 => .bin (.field 4)
    | 0xc7 => .ext (.field 1)
    | 0xc8 => .ext (.field 2)
    | 0xc9 => .ext (.field 4)
    | 0xca => .float32
    | 0xcb => .float64
    | 0xcc => .unsigned 1
    | 0xcd => .unsigned 2
    | 0xce => .unsigned 4
    | 0xcf => .unsigned 8
    | 0xd0 => .signed 1
    | 0xd1 => .signed 2
    | 0xd2 => .signed 4
    | 0xd3 => .signed 8
    | 0xd4 => .ext (.inline 1)
    | 0xd5 => .ext (.inline 2)
    | 0xd6 => .ext (.inline 4)
    | 0xd7 => .ext (.inline 8)
    | 0xd8 => .ext (.inline 16)
    | 0xd9 => .str (.field 1)
    | 0xda => .str (.field 2)
    | 0xdb => .str (.field 4)
    | 0xdc => .array (.field 2)
    | 0xdd => .array (.field 4)
    | 0xde => .map (.field 2)
    | 0xdf => .map (.field 4)
    | _ => .reserved

/-- Only one byte is reserved. -/
theorem Lead.ofByte_eq_reserved_iff (b : UInt8) : ofByte b = .reserved ↔ b = 0xc1 := by
  have all : ∀ n : Fin 256,
      ofByte (UInt8.ofNat n) = .reserved ↔ UInt8.ofNat n = 0xc1 := by decide +kernel
  simpa using all ⟨b.toNat, b.toNat_lt⟩

end StakeLedger.MsgPack
