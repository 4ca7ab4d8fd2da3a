/-
**Why bytes are no record or message.**

Main definitions:

* `StakeLedger.FieldType` — what a field was expected to be;
* `StakeLedger.CodecError` — the causes, with their wording in `StakeLedger.CodecError.message`.
-/
import StakeLedger.Address
import StakeLedger.Digest
import StakeLedger.MsgPack.Reader

set_option autoImplicit false

namespace StakeLedger

/-- What a field was expected to be. -/
inductive FieldType
  | unsigned
  | boolean
  | bin
  | text
  | string
  | array
  | integer
  deriving DecidableEq, Repr

/-- The name of a field type. -/
def FieldType.name : FieldType → String
  | .unsigned => "unsigned integer"
  | .boolean => "boolean"
  | .bin => "bin"
  | .text => "utf-8 string"
  | .string => "string"
  | .array => "array"
  | .integer => "integer"

/-- Why bytes are no record or message. -/
inductive CodecError
  | invalidAddress (fault : Address.Fault)
  /-- A digest has `actual` bytes. -/
  | invalidDigestSize (actual : Nat)
  /-- A record has another number of fields than its kind asks for. -/
  | arity (expected actual : Nat)
  | unexpectedType (field : String) (expected : FieldType)
  | outOfRange (field : String)
  /-- The bytes of an integer exceed the range of an amount. -/
  | integerTooLong (size : Nat)
  | read (fault : MsgPack.ReadFault)
  /-- Bytes follow the value. -/
  | trailingBytes (count : Nat)
  deriving DecidableEq, Repr

/-- The wording of an error. -/
def CodecError.message : CodecError → String
  | .invalidAddress fault => s!"invalid address: {fault.message}"
  | .invalidDigestSize actual =>
      s!"invalid hash length: expected {Digest.size} bytes, got {actual}"
  | .arity expected actual => s!"expected an array of {expected} fields, got {actual}"
  | .unexpectedType field expected =>
      s!"field `{field}` has the wrong type: expected {expected.name}"
  | .outOfRange field => s!"field `{field}` is out of range"
  | .integerTooLong size => s!"integer bytes too long: {size} bytes"
  | .read fault => s!"msgpack read failed: {fault.message}"
  | .trailingBytes count => s!"{count} trailing bytes after value"

end StakeLedger
