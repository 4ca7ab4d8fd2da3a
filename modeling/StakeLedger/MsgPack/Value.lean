/-
**MessagePack values.**

The values that MessagePack bytes stand for.  Integers reach from `-2 ^ 63` to `2 ^ 64 - 1`; a
string is kept as the bytes it was read from, because bytes that spell no text are read all the
same; floating point numbers are kept as their bits; the entries of a map keep their order and may
repeat a key.

Main definitions:

* `StakeLedger.MsgPack.Value` — values;
* `StakeLedger.MsgPack.Value.ofNat`, `StakeLedger.MsgPack.Value.ofText` — numbers and texts as
  values.
-/
import StakeLedger.Bytes

set_option autoImplicit false

namespace StakeLedger.MsgPack

/-- A MessagePack value. -/
inductive Value
  | nil
  | bool (b : Bool)
  /-- An integer from `-2 ^ 63` to `2 ^ 64 - 1`. -/
  | int (n : Int)
  | float32 (bits : UInt32)
  | float64 (bits : UInt64)
  /-- A string, as its bytes. -/
  | str (bytes : Bytes)
  | bin (bytes : Bytes)
  | array (items : List Value)
  | map (entries : List (Value × Value))
  /-- Data of an application's own type, a number from -128 to 127. -/
  | ext (type : Int) (data : Bytes)
  deriving Repr, Inhabited

/-- A natural number as a value. -/
def Value.ofNat (n : Nat) : Value := .int n

/-- A text as a value. -/
def Value.ofText (text : String) : Value := .str (Bytes.ofText text)

end StakeLedger.MsgPack
