/-
**The fields of records and messages.**

Records and messages are MessagePack arrays with a fixed number of fields.  Each type of field has a
writer and a reader here; a reader names its field in the error, and a record is read only if every
field is.

Amounts have two written forms: an integer of the format where it fits, and otherwise data of type 1
that holds the shortest two's complement bytes.

Main definitions:

* `StakeLedger.decodeValue` — the one value that a byte string is;
* `StakeLedger.Field.amount`, `StakeLedger.Field.intBytes`, `StakeLedger.Field.address`,
  `StakeLedger.Field.digest` — writers;
* `StakeLedger.Field.readAmount` and its companions — readers;
* `StakeLedger.FieldReader` — reading the fields of an array one after the other.

Main results:

* `StakeLedger.Field.readAddress_address`, `StakeLedger.Field.readDigest_digest` — addresses and
  digests read back.
-/
import StakeLedger.Amount
import StakeLedger.Codec.Error
import StakeLedger.MsgPack.Writer

set_option autoImplicit false

namespace StakeLedger

open MsgPack (Value)

/-- The one value that the bytes are, with nothing after it. -/
def decodeValue (bytes : Bytes) : Except CodecError Value :=
  match MsgPack.readValue MsgPack.depthBudget bytes with
  | .error fault => .error (.read fault)
  | .ok (value, []) => .ok value
  | .ok (_, rest) => .error (.trailingBytes rest.length)

/-- The integer in two's complement that the bytes spell, if it is an amount. -/
def Amount.ofBytes (bytes : Bytes) : Except CodecError Int :=
  if 16 < bytes.length then .error (.integerTooLong bytes.length) else .ok bytes.toInt

namespace Field

/-! ### Writers -/

/-- The type of the data that holds an amount beyond the integers of the format. -/
def amountType : Int := 1

/-- An amount: an integer of the format if it fits, and otherwise data of type `amountType`. -/
def amount (n : Int) : Value :=
  if -0x8000000000000000 ≤ n ∧ n < 0x10000000000000000 then .int n
  else .ext amountType (Amount.toBytes n)

/-- An integer as binary data. -/
def intBytes (n : Int) : Value := .bin (Amount.toBytes n)

/-- An address as binary data. -/
def address (a : Address) : Value := .bin a.toBytes

/-- A digest as binary data. -/
def digest {subject : Digest.Subject} (d : Digest subject) : Value := .bin d.bytes

/-! ### Readers -/

/-- A natural number below `2 ^ 64`. -/
def readNat (name : String) : Value → Except CodecError Nat
  | .int n => if 0 ≤ n then .ok n.toNat else .error (.outOfRange name)
  | _ => .error (.unexpectedType name .unsigned)

/-- A natural number below 256. -/
def readByte (name : String) (value : Value) : Except CodecError UInt8 := do
  let n ← readNat name value
  if n < 256 then return UInt8.ofNat n else throw (.outOfRange name)

/-- A truth value. -/
def readBool (name : String) : Value → Except CodecError Bool
  | .bool b => .ok b
  | _ => .error (.unexpectedType name .boolean)

/-- Binary data. -/
def readBytes (name : String) : Value → Except CodecError Bytes
  | .bin bytes => .ok bytes
  | _ => .error (.unexpectedType name .bin)

/-- A string that spells a text. -/
def readText (name : String) : Value → Except CodecError String
  | .str bytes =>
      match bytes.text? with
      | some text => .ok text
      | none => .error (.unexpectedType name .text)
  | _ => .error (.unexpectedType name .string)

/-- The items of an array. -/
def readArray (name : String) : Value → Except CodecError (List Value)
  | .array items => .ok items
  | _ => .error (.unexpectedType name .array)

/-- An amount in either form. -/
def readAmount (name : String) : Value → Except CodecError Int
  | .int n => .ok n
  | .ext type data =>
      if type = amountType then Amount.ofBytes data else .error (.unexpectedType name .integer)
  | _ => .error (.unexpectedType name .integer)

/-- An integer as binary data. -/
def readIntBytes (name : String) (value : Value) : Except CodecError Int := do
  Amount.ofBytes (← readBytes name value)

/-- An address as binary data. -/
def readAddress (name : String) (value : Value) : Except CodecError Address := do
  (Address.ofBytes (← readBytes name value)).mapError .invalidAddress

/-- The digest with the given bytes. -/
def digestOfBytes {subject : Digest.Subject} (bytes : Bytes) :
    Except CodecError (Digest subject) :=
  match Digest.ofBytes? bytes with
  | some d => .ok d
  | none => .error (.invalidDigestSize bytes.length)

/-- A digest as binary data. -/
def readDigest {subject : Digest.Subject} (name : String) (value : Value) :
    Except CodecError (Digest subject) := do
  digestOfBytes (← readBytes name value)

/-! ### What was written reads back -/

@[simp] theorem readNat_ofNat (name : String) (n : Nat) :
    readNat name (Value.ofNat n) = .ok n := by
  simp [readNat, Value.ofNat]

@[simp] theorem readBool_bool (name : String) (b : Bool) : readBool name (.bool b) = .ok b := rfl

@[simp] theorem readText_ofText (name text : String) :
    readText name (Value.ofText text) = .ok text := by
  simp [readText, Value.ofText]

@[simp] theorem readAddress_address (name : String) (a : Address) :
    readAddress name (address a) = .ok a := by
  show (Address.ofBytes a.toBytes).mapError CodecError.invalidAddress = .ok a
  rw [Address.ofBytes_toBytes]
  rfl

@[simp] theorem readDigest_digest {subject : Digest.Subject} (name : String)
    (d : Digest subject) : readDigest name (digest d) = .ok d := by
  simp [readDigest, digest, readBytes, digestOfBytes, bind, Except.bind]

end Field

/-! ### Reading field after field -/

/-- The fields of an array that are still to be read. -/
structure FieldReader where
  /-- How many fields the array has. -/
  total : Nat
  /-- The fields not read yet. -/
  rest : List Value

namespace FieldReader

/-- The reader of an array with `expected` fields. -/
def ofValue (expected : Nat) (value : Value) : Except CodecError FieldReader := do
  let items ← Field.readArray "fields" value
  if items.length = expected then return { total := items.length, rest := items }
  else throw (.arity expected items.length)

/-- How many fields are not read yet. -/
def remaining (reader : FieldReader) : Nat := reader.rest.length

/-- Reads the next field.  A field counts as read whether or not it is what was expected; past the
last field nothing is read. -/
def read {α : Type} (parse : Value → Except CodecError α) (reader : FieldReader) :
    Except CodecError α × FieldReader :=
  match reader.rest with
  | [] => (.error (.arity (reader.total + 1) reader.total), reader)
  | field :: rest => (parse field, { reader with rest })

end FieldReader

end StakeLedger
