/-
**Reading MessagePack values.**

Every form of a value is read, the shortest or not, and the reserved first byte reads as nil.
Nesting is bounded by a budget that each level draws on: a value takes one unit before its first
byte is read; after the size, an array or a map takes one more and gives what remains to each of its
items; a string takes two more, binary data one, and data of an application's own type one before
its type byte and one before its data.

Main definitions:

* `StakeLedger.MsgPack.ReadFault` — where reading failed;
* `StakeLedger.MsgPack.readValue` — one value from the front of a byte string, within a budget;
* `StakeLedger.MsgPack.depthBudget` — the budget of a value that stands alone.
-/
import StakeLedger.MsgPack.Value
import StakeLedger.MsgPack.Lead

set_option autoImplicit false

namespace StakeLedger.MsgPack

/-- Where reading failed. -/
inductive ReadFault
  /-- The bytes end where a value must start. -/
  | missingValue
  /-- The bytes end inside a size, a number or a type byte. -/
  | truncatedField
  /-- The bytes end inside a string or other data. -/
  | truncatedBody (expected actual : Nat)
  /-- The nesting exceeds the budget. -/
  | tooDeep
  deriving DecidableEq, Repr

/-- The wording of a fault. -/
def ReadFault.message : ReadFault → String
  | .missingValue => "I/O error while reading marker byte: failed to fill whole buffer"
  | .truncatedField => "I/O error while reading non-marker bytes: failed to fill whole buffer"
  | .truncatedBody expected actual =>
      "I/O error while reading non-marker bytes: " ++
        s!"Expected {expected} bytes, read {actual} bytes"
  | .tooDeep => "depth limit exceeded"

/-! ### The pieces of a value -/

/-- A field of `width` bytes. -/
def readField (width : Nat) (bytes : Bytes) : Except ReadFault (Bytes × Bytes) :=
  match bytes.split? width with
  | some cut => .ok cut
  | none => .error .truncatedField

/-- A natural number in a field of `width` bytes. -/
def readNat (width : Nat) (bytes : Bytes) : Except ReadFault (Nat × Bytes) := do
  let (field, rest) ← readField width bytes
  return (field.toNat, rest)

/-- The size that a first byte announced. -/
def Size.read : Size → Bytes → Except ReadFault (Nat × Bytes)
  | .inline n, bytes => .ok (n, bytes)
  | .field width, bytes => readNat width bytes

/-- The `n` bytes of a string or other data. -/
def readBody (n : Nat) (bytes : Bytes) : Except ReadFault (Bytes × Bytes) :=
  match bytes.split? n with
  | some cut => .ok cut
  | none => .error (.truncatedBody n bytes.length)

/-- What `count` readings in a row give. -/
def readMany {α : Type} (read : Bytes → Except ReadFault (α × Bytes)) :
    (count : Nat) → Bytes → Except ReadFault (List α × Bytes)
  | 0, bytes => .ok ([], bytes)
  | count + 1, bytes => do
      let (item, rest) ← read bytes
      let (items, rest) ← readMany read count rest
      return (item :: items, rest)

/-- What two readings in a row give. -/
def readPair {α : Type} (read : Bytes → Except ReadFault (α × Bytes)) (bytes : Bytes) :
    Except ReadFault ((α × α) × Bytes) := do
  let (first, rest) ← read bytes
  let (second, rest) ← read rest
  return ((first, second), rest)

/-- Fails unless at least `units` of the budget are left. -/
def takeBudget (units budget : Nat) : Except ReadFault Unit :=
  if units ≤ budget then .ok () else .error .tooDeep

/-! ### Values -/

/-- The value at the front of the bytes and what follows it. -/
def readValue : (budget : Nat) → Bytes → Except ReadFault (Value × Bytes)
  | 0, _ => .error .tooDeep
  | _ + 1, [] => .error .missingValue
  | budget + 1, b :: rest =>
      match Lead.ofByte b with
      | .nil => .ok (.nil, rest)
      | .reserved => .ok (.nil, rest)
      | .bool value => .ok (.bool value, rest)
      | .small n => .ok (.int n, rest)
      | .unsigned width => do
          let (n, rest) ← readNat width rest
          return (.int n, rest)
      | .signed width => do
          let (field, rest) ← readField width rest
          return (.int field.toInt, rest)
      | .float32 => do
          let (bits, rest) ← readNat 4 rest
          return (.float32 (UInt32.ofNat bits), rest)
      | .float64 => do
          let (bits, rest) ← readNat 8 rest
          return (.float64 (UInt64.ofNat bits), rest)
      | .str size => do
          let (n, rest) ← size.read rest
          -- the string and its body take one unit each
          takeBudget 2 budget
          let (body, rest) ← readBody n rest
          return (.str body, rest)
      | .bin size => do
          let (n, rest) ← size.read rest
          takeBudget 1 budget
          let (body, rest) ← readBody n rest
          return (.bin body, rest)
      | .ext size => do
          let (n, rest) ← size.read rest
          takeBudget 1 budget
          let (type, rest) ← readField 1 rest
          -- one unit for the data as a whole, which was checked above, and one for its body
          takeBudget 2 budget
          let (data, rest) ← readBody n rest
          return (.ext type.toInt data, rest)
      | .array size => do
          let (n, rest) ← size.read rest
          match budget with
          | 0 => throw .tooDeep
          | inner + 1 => do
              let (items, rest) ← readMany (readValue inner) n rest
              return (.array items, rest)
      | .map size => do
          let (n, rest) ← size.read rest
          match budget with
          | 0 => throw .tooDeep
          | inner + 1 => do
              let (entries, rest) ← readMany (readPair (readValue inner)) n rest
              return (.map entries, rest)

/-- The budget of a value that stands alone. -/
def depthBudget : Nat := 1024

end StakeLedger.MsgPack
