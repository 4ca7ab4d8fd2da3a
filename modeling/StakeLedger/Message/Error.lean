/-
**Why bytes are no message.**

Main definitions:

* `StakeLedger.Malformation` — where a value departs from the form of a message;
* `StakeLedger.ProtocolError` — the causes, with their wording in
  `StakeLedger.ProtocolError.message`.
-/
import StakeLedger.Codec.Error
import StakeLedger.Message.Kind
import StakeLedger.MsgPack.Frame

set_option autoImplicit false

namespace StakeLedger

/-- Where a value departs from the form of a message. -/
inductive Malformation
  | notArray
  | wrongLength (actual : Nat)
  | tagNotUnsigned
  | idNotUnsigned
  | payloadNotArray (kind : MessageKind)
  /-- The payload has another number of fields than its kind asks for. -/
  | payloadArity (kind : MessageKind) (expected actual : Nat)
  /-- A notification stands where a request must. -/
  | notRequest (kind : MessageKind)
  /-- The reserved first byte stands at `offset`. -/
  | reservedLead (offset : Nat)
  /-- The bytes of a complete frame are no value. -/
  | undecodable (error : CodecError)
  deriving DecidableEq, Repr

/-- The wording of a malformation. -/
def Malformation.message : Malformation → String
  | .notArray => "message is not an array"
  | .wrongLength actual => s!"message has {actual} elements, expected 2 or 3"
  | .tagNotUnsigned => "message type is not an unsigned integer"
  | .idNotUnsigned => "msg_id is not an unsigned integer"
  | .payloadNotArray kind => s!"{kind.name} payload is not an array"
  | .payloadArity kind expected actual =>
      s!"{kind.name} payload: {(CodecError.arity expected actual).message}"
  | .notRequest kind => s!"{kind.name} is a notification, not a request"
  | .reservedLead offset => s!"reserved marker 0xc1 at offset {offset}"
  | .undecodable error => error.message

/-- Why bytes are no message. -/
inductive ProtocolError
  | unknownKind (tag : Nat)
  | malformed (cause : Malformation)
  | tooLarge (size limit : Nat)
  /-- An earlier error has left the position in the stream unknown. -/
  | desynchronized
  /-- The stream ends inside a message, of which `buffered` bytes are there. -/
  | truncated (buffered : Nat)
  | codec (error : CodecError)
  deriving DecidableEq, Repr

/-- The wording of an error. -/
def ProtocolError.message : ProtocolError → String
  | .unknownKind tag => s!"unknown message type: {tag}"
  | .malformed cause => s!"malformed message: {cause.message}"
  | .tooLarge size limit => s!"message too large: {size} > {limit}"
  | .desynchronized => "stream desynchronized by an earlier error"
  | .truncated buffered => s!"stream ended inside a message ({buffered} bytes buffered)"
  | .codec error => s!"codec error: {error.message}"

/-- The error that a fault of the frame scan is. -/
def ProtocolError.ofFrameFault : MsgPack.FrameFault → ProtocolError
  | .reservedLead offset => .malformed (.reservedLead offset)
  | .tooLarge size limit => .tooLarge size limit

end StakeLedger
