/-
**The written form of messages and requests.**

A message is the array `[tag, id, payload]`; a kind without payload is written as `[tag, id]`.  The
payload is an array with exactly the fields of the kind, in order.  Reading checks the envelope
first, then the number of fields, then the fields one after the other, and ignores nothing; an empty
payload may stand where none is written.

Main definitions:

* `StakeLedger.Envelope` — kind, number and payload;
* `StakeLedger.PayloadFault` — why a payload does not fit its kind;
* `StakeLedger.Message.encode`, `StakeLedger.Message.ofValue` — messages;
* `StakeLedger.Request.encode`, `StakeLedger.Request.ofValue` — requests.
-/
import StakeLedger.Codec.Field
import StakeLedger.Message.Basic
import StakeLedger.Message.Error

set_option autoImplicit false

namespace StakeLedger

open MsgPack (Value)

/-! ### Envelopes -/

/-- The kind, the number and the payload of a message. -/
structure Envelope where
  kind : MessageKind
  id : Nat
  payload : List Value

namespace Envelope

/-- The written form of an envelope. -/
def toValue (envelope : Envelope) : Value :=
  let front := [Value.ofNat envelope.kind.tag, Value.ofNat envelope.id]
  .array (if envelope.payload.isEmpty then front else front ++ [.array envelope.payload])

/-- A natural number, or the given malformation. -/
def readNumber (malformation : Malformation) : Value → Except ProtocolError Nat
  | .int n => if 0 ≤ n then .ok n.toNat else .error (.malformed malformation)
  | _ => .error (.malformed malformation)

/-- The kind with a given number. -/
def readKind (tag : Nat) : Except ProtocolError MessageKind :=
  match MessageKind.ofTag? tag with
  | some kind => .ok kind
  | none => .error (.unknownKind tag)

/-- The payload of a message of the given kind. -/
def readPayload (kind : MessageKind) : List Value → Except ProtocolError (List Value)
  | [] => .ok []
  | .array fields :: _ => .ok fields
  | _ => .error (.malformed (.payloadNotArray kind))

/-- The envelope that the items of an array make up. -/
def ofItems (tag id : Value) (rest : List Value) : Except ProtocolError Envelope := do
  let tag ← readNumber .tagNotUnsigned tag
  let kind ← readKind tag
  let id ← readNumber .idNotUnsigned id
  let payload ← readPayload kind rest
  return { kind, id, payload }

/-- The envelope that a value is. -/
def ofValue : Value → Except ProtocolError Envelope
  | .array [tag, id] => ofItems tag id []
  | .array [tag, id, payload] => ofItems tag id [payload]
  | .array items => .error (.malformed (.wrongLength items.length))
  | _ => .error (.malformed .notArray)

end Envelope

/-! ### Payloads -/

/-- Why a payload does not fit the kind of its envelope. -/
inductive PayloadFault
  /-- The kind asks for `expected` fields. -/
  | wrongArity (expected : Nat)
  | field (error : CodecError)
  /-- The kind is a notification and is never requested. -/
  | notRequest
  deriving DecidableEq, Repr

/-- What reading the fields of a payload gives. -/
def readFields {α : Type} (result : Except CodecError α) : Except PayloadFault α :=
  result.mapError .field

/-- The error of an envelope whose payload has a fault. -/
def Envelope.explain (envelope : Envelope) : PayloadFault → ProtocolError
  | .wrongArity expected =>
      .malformed (.payloadArity envelope.kind expected envelope.payload.length)
  | .field error => .codec error
  | .notRequest => .malformed (.notRequest envelope.kind)

/-! ### Messages -/

namespace Message

open StakeLedger.Field

/-- The fields of a message. -/
def Body.payload : Body → List Value
  | .version number height => [.ofNat number, .ofNat height]
  | .claim a height blockHash txIndex txHash iscore =>
      [address a, .ofNat height, digest blockHash, .ofNat txIndex, digest txHash, intBytes iscore]
  | .query a iscore height => [address a, intBytes iscore, .ofNat height]
  | .calculate status height => [.ofNat status, .ofNat height]
  | .commitBlock success height blockHash => [.bool success, .ofNat height, digest blockHash]
  | .commitClaim => []
  | .queryCalculateStatus status height => [.ofNat status, .ofNat height]
  | .queryCalculateResult status height iscore stateHash =>
      [.ofNat status, .ofNat height, intBytes iscore, digest stateHash]
  | .rollback success height blockHash => [.bool success, .ofNat height, digest blockHash]
  | .init success height => [.bool success, .ofNat height]
  | .ready number height blockHash => [.ofNat number, .ofNat height, digest blockHash]
  | .calculateDone success height iscore stateHash =>
      [.bool success, .ofNat height, intBytes iscore, digest stateHash]

/-- The written form of a message. -/
def toValue (message : Message) : Value :=
  Envelope.toValue
    { kind := message.body.kind, id := message.id, payload := message.body.payload }

/-- The bytes of a message. -/
def encode (message : Message) : Bytes := message.toValue.encode

/-- The contents that a payload of the given kind describes. -/
def Body.ofPayload (kind : MessageKind) (payload : List Value) : Except PayloadFault Body :=
  match kind with
  | .version => match payload with
    | [number, height] => readFields do
        return .version (← readNat "version" number) (← readNat "block_height" height)
    | _ => .error (.wrongArity 2)
  | .claim => match payload with
    | [a, height, blockHash, txIndex, txHash, iscore] => readFields do
        return .claim (← readAddress "address" a) (← readNat "block_height" height)
          (← readDigest "block_hash" blockHash) (← readNat "tx_index" txIndex)
          (← readDigest "tx_hash" txHash) (← readIntBytes "iscore" iscore)
    | _ => .error (.wrongArity 6)
  | .query => match payload with
    | [a, iscore, height] => readFields do
        return .query (← readAddress "address" a) (← readIntBytes "iscore" iscore)
          (← readNat "block_height" height)
    | _ => .error (.wrongArity 3)
  | .calculate => match payload with
    | [status, height] => readFields do
        return .calculate (← readNat "status" status) (← readNat "block_height" height)
    | _ => .error (.wrongArity 2)
  | .commitBlock => match payload with
    | [success, height, blockHash] => readFields do
        return .commitBlock (← readBool "success" success) (← readNat "block_height" height)
          (← readDigest "block_hash" blockHash)
    | _ => .error (.wrongArity 3)
  | .commitClaim => match payload with
    | [] => readFields (return .commitClaim)
    | _ => .error (.wrongArity 0)
  | .queryCalculateStatus => match payload with
    | [status, height] => readFields do
        return .queryCalculateStatus (← readNat "status" status) (← readNat "block_height" height)
    | _ => .error (.wrongArity 2)
  | .queryCalculateResult => match payload with
    | [status, height, iscore, stateHash] => readFields do
        return .queryCalculateResult (← readNat "status" status) (← readNat "block_height" height)
          (← readIntBytes "iscore" iscore) (← readDigest "state_hash" stateHash)
    | _ => .error (.wrongArity 4)
  | .rollback => match payload with
    | [success, height, blockHash] => readFields do
        return .rollback (← readBool "success" success) (← readNat "block_height" height)
          (← readDigest "block_hash" blockHash)
    | _ => .error (.wrongArity 3)
  | .init => match payload with
    | [success, height] => readFields do
        return .init (← readBool "success" success) (← readNat "block_height" height)
    | _ => .error (.wrongArity 2)
  | .ready => match payload with
    | [number, height, blockHash] => readFields do
        return .ready (← readNat "version" number) (← readNat "block_height" height)
          (← readDigest "block_hash" blockHash)
    | _ => .error (.wrongArity 3)
  | .calculateDone => match payload with
    | [success, height, iscore, stateHash] => readFields do
        return .calculateDone (← readBool "success" success) (← readNat "block_height" height)
          (← readIntBytes "iscore" iscore) (← readDigest "state_hash" stateHash)
    | _ => .error (.wrongArity 4)

/-- The message that a value is. -/
def ofValue (value : Value) : Except ProtocolError Message := do
  let envelope ← Envelope.ofValue value
  let body ← (Body.ofPayload envelope.kind envelope.payload).mapError envelope.explain
  return { id := envelope.id, body }

end Message

/-! ### Requests -/

namespace Request

open StakeLedger.Field

/-- The fields of a request. -/
def Body.payload : Body → List Value
  | .version => []
  | .claim a height blockHash txIndex txHash =>
      [address a, .ofNat height, digest blockHash, .ofNat txIndex, digest txHash]
  | .query a => [address a]
  | .calculate path height => [.ofText path, .ofNat height]
  | .commitBlock success height blockHash => [.bool success, .ofNat height, digest blockHash]
  | .commitClaim success a height blockHash txIndex txHash =>
      [.bool success, address a, .ofNat height, digest blockHash, .ofNat txIndex, digest txHash]
  | .queryCalculateStatus => []
  | .queryCalculateResult height => [.ofNat height]
  | .rollback height blockHash => [.ofNat height, digest blockHash]
  | .init height => [.ofNat height]

/-- The written form of a request. -/
def toValue (request : Request) : Value :=
  Envelope.toValue
    { kind := request.body.kind, id := request.id, payload := request.body.payload }

/-- The bytes of a request. -/
def encode (request : Request) : Bytes := request.toValue.encode

/-- The contents that a payload of the given kind describes. -/
def Body.ofPayload (kind : MessageKind) (payload : List Value) : Except PayloadFault Body :=
  match kind with
  | .version => match payload with
    | [] => readFields (return .version)
    | _ => .error (.wrongArity 0)
  | .claim => match payload with
    | [a, height, blockHash, txIndex, txHash] => readFields do
        return .claim (← readAddress "address" a) (← readNat "block_height" height)
          (← readDigest "block_hash" blockHash) (← readNat "tx_index" txIndex)
          (← readDigest "tx_hash" txHash)
    | _ => .error (.wrongArity 5)
  | .query => match payload with
    | [a] => readFields (return .query (← readAddress "address" a))
    | _ => .error (.wrongArity 1)
  | .calculate => match payload with
    | [path, height] => readFields do
        return .calculate (← readText "db_path" path) (← readNat "block_height" height)
    | _ => .error (.wrongArity 2)
  | .commitBlock => match payload with
    | [success, height, blockHash] => readFields do
        return .commitBlock (← readBool "success" success) (← readNat "block_height" height)
          (← readDigest "block_hash" blockHash)
    | _ => .error (.wrongArity 3)
  | .commitClaim => match payload with
    | [success, a, height, blockHash, txIndex, txHash] => readFields do
        return .commitClaim (← readBool "success" success) (← readAddress "address" a)
          (← readNat "block_height" height) (← readDigest "block_hash" blockHash)
          (← readNat "tx_index" txIndex) (← readDigest "tx_hash" txHash)
    | _ => .error (.wrongArity 6)
  | .queryCalculateStatus => match payload with
    | [] => readFields (return .queryCalculateStatus)
    | _ => .error (.wrongArity 0)
  | .queryCalculateResult => match payload with
    | [height] => readFields (return .queryCalculateResult (← readNat "block_height" height))
    | _ => .error (.wrongArity 1)
  | .rollback => match payload with
    | [height, blockHash] => readFields do
        return .rollback (← readNat "block_height" height) (← readDigest "block_hash" blockHash)
    | _ => .error (.wrongArity 2)
  | .init => match payload with
    | [height] => readFields (return .init (← readNat "block_height" height))
    | _ => .error (.wrongArity 1)
  | .ready => .error .notRequest
  | .calculateDone => .error .notRequest

/-- The request that a value is. -/
def ofValue (value : Value) : Except ProtocolError Request := do
  let envelope ← Envelope.ofValue value
  let body ← (Body.ofPayload envelope.kind envelope.payload).mapError envelope.explain
  return { id := envelope.id, body }

end Request

end StakeLedger
