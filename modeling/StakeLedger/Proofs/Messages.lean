/-
**Messages and requests read back.**

Both directions of the exchange are written as an envelope around the fields of the contents.  The
envelope reads back whatever its payload is, with or without one, and the fields of every kind read
back as long as their numbers are in the range of the wire.  What is left is that all of it has a
written form, which the reader of values finds again.

Main definitions:

* `StakeLedger.Message.InRange`, `StakeLedger.Request.InRange` — contents that the wire can carry.

Main results:

* `StakeLedger.Envelope.ofValue_toValue` — an envelope reads back;
* `StakeLedger.Message.InRange.decodeValue_encode`, `StakeLedger.Message.InRange.ofValue_toValue`,
  `StakeLedger.Request.InRange.decodeValue_encode`, `StakeLedger.Request.ofValue_toValue` — the
  bytes of a message or a request are its value, and the value is read as what it was;
* `StakeLedger.exchanged_reads_back` — the two together, for all messages and all requests.
-/
import StakeLedger.Message.Codec
import StakeLedger.Proofs.Records

set_option autoImplicit false

namespace StakeLedger

open Results
open MsgPack (Value depthBudget)

/-! ### Fields -/

namespace Field

/-- The greatest number that a field holds. -/
def maxNumber : Nat := 0xffffffffffffffff

variable {budget : Nat}

theorem fits_number {n : Nat} (h : n ≤ maxNumber) : (Value.ofNat n).Fits (budget + 1) :=
  fits_ofNat h

theorem fits_digest {subject : Digest.Subject} (d : Digest subject) :
    (digest d).Fits (budget + 2) :=
  .bin (by rw [d.size_bytes]; decide)

theorem fits_intBytes {n : Int} (h : Amount.InRange n) : (intBytes n).Fits (budget + 2) := by
  have hlength := Amount.length_toBytes_of_inRange h
  exact .bin (by omega)

theorem fits_text {text : String} (h : text.utf8ByteSize < 0x100000000) :
    (Value.ofText text).Fits (budget + 3) :=
  .str (by rw [Bytes.text?_ofText]; rfl) h

/-- An amount reads back from its bytes. -/
theorem readIntBytes_intBytes {n : Int} (h : Amount.InRange n) (name : String) :
    readIntBytes name (intBytes n) = .ok n := by
  rw [readIntBytes, intBytes, readBytes, ok_bind, Amount.ofBytes_toBytes h]

end Field

/-! ### Envelopes -/

namespace Envelope

theorem readNumber_ofNat (malformation : Malformation) (n : Nat) :
    readNumber malformation (Value.ofNat n) = .ok n := by
  simp [readNumber, Value.ofNat]

theorem readKind_tag (kind : MessageKind) : readKind kind.tag = .ok kind := by
  rw [readKind, MessageKind.ofTag?_tag]

/-- An envelope reads back, whether or not it has a payload. -/
theorem ofValue_toValue (envelope : Envelope) : ofValue envelope.toValue = .ok envelope := by
  obtain ⟨kind, id, payload⟩ := envelope
  cases payload with
  | nil => simp only [toValue, List.isEmpty_nil, if_true, ofValue, ofItems, readNumber_ofNat,
      readKind_tag, readPayload, ok_bind, pure_eq_ok]
  | cons field fields =>
      simp only [toValue, List.isEmpty_cons, Bool.false_eq_true, if_false, List.cons_append,
        List.nil_append, ofValue, ofItems, readNumber_ofNat, readKind_tag, readPayload, ok_bind,
        pure_eq_ok]

theorem tag_le (kind : MessageKind) : kind.tag ≤ Field.maxNumber := by
  cases kind <;> decide

/-- An envelope has a written form if its number and the fields of its payload have one. -/
theorem fits_toValue {envelope : Envelope} {budget : Nat} (id_le : envelope.id ≤ Field.maxNumber)
    (few : envelope.payload.length < 0x100000000)
    (payload_fits : ∀ field ∈ envelope.payload, field.Fits (budget + 3)) :
    envelope.toValue.Fits (budget + 7) := by
  have hkind : (Value.ofNat envelope.kind.tag).Fits (budget + 5) :=
    Field.fits_number (tag_le envelope.kind)
  have hid : (Value.ofNat envelope.id).Fits (budget + 5) := Field.fits_number id_le
  rw [toValue]
  split
  · refine .array (show 2 < 0x100000000 by decide) ?_
    simp only [List.forall_mem_cons]
    exact ⟨hkind, hid, nofun⟩
  · refine .array (show 3 < 0x100000000 by decide) ?_
    simp only [List.cons_append, List.nil_append, List.forall_mem_cons]
    exact ⟨hkind, hid, .array few payload_fits, nofun⟩

end Envelope

/-! ### Messages -/

namespace Message

open StakeLedger.Field

/-- Contents whose numbers and amounts are in the range of the wire. -/
def Body.InRange : Body → Prop
  | .version number height => number ≤ maxNumber ∧ height ≤ maxHeight
  | .claim _ height _ txIndex _ iscore =>
      height ≤ maxHeight ∧ txIndex ≤ maxNumber ∧ Amount.InRange iscore
  | .query _ iscore height => Amount.InRange iscore ∧ height ≤ maxHeight
  | .calculate status height => status ≤ maxNumber ∧ height ≤ maxHeight
  | .commitBlock _ height _ => height ≤ maxHeight
  | .commitClaim => True
  | .queryCalculateStatus status height => status ≤ maxNumber ∧ height ≤ maxHeight
  | .queryCalculateResult status height iscore _ =>
      status ≤ maxNumber ∧ height ≤ maxHeight ∧ Amount.InRange iscore
  | .rollback _ height _ => height ≤ maxHeight
  | .init _ height => height ≤ maxHeight
  | .ready number height _ => number ≤ maxNumber ∧ height ≤ maxHeight
  | .calculateDone _ height iscore _ => height ≤ maxHeight ∧ Amount.InRange iscore

/-- A message that the wire can carry. -/
structure InRange (message : Message) : Prop where
  id_le : message.id ≤ maxNumber
  body_inRange : message.body.InRange

theorem Body.length_payload_le (body : Body) : body.payload.length ≤ 6 := by
  cases body <;> simp [Body.payload]

/-- Every field of a message has a written form. -/
theorem Body.InRange.fits {body : Body} (h : body.InRange) (budget : Nat) :
    ∀ field ∈ body.payload, field.Fits (budget + 3) := by
  cases body <;> simp only [Body.payload, List.forall_mem_cons]
  case version => exact ⟨fits_number h.1, fits_ofNat h.2, nofun⟩
  case claim a _ blockHash _ txHash _ =>
    exact ⟨fits_address a, fits_ofNat h.1, fits_digest blockHash, fits_number h.2.1,
      fits_digest txHash, fits_intBytes h.2.2, nofun⟩
  case query a _ _ => exact ⟨fits_address a, fits_intBytes h.1, fits_ofNat h.2, nofun⟩
  case calculate => exact ⟨fits_number h.1, fits_ofNat h.2, nofun⟩
  case commitBlock success _ blockHash =>
    exact ⟨.bool success, fits_ofNat h, fits_digest blockHash, nofun⟩
  case commitClaim => exact nofun
  case queryCalculateStatus => exact ⟨fits_number h.1, fits_ofNat h.2, nofun⟩
  case queryCalculateResult _ _ _ stateHash =>
    exact ⟨fits_number h.1, fits_ofNat h.2.1, fits_intBytes h.2.2, fits_digest stateHash, nofun⟩
  case rollback success _ blockHash =>
    exact ⟨.bool success, fits_ofNat h, fits_digest blockHash, nofun⟩
  case init success _ => exact ⟨.bool success, fits_ofNat h, nofun⟩
  case ready _ _ blockHash =>
    exact ⟨fits_number h.1, fits_ofNat h.2, fits_digest blockHash, nofun⟩
  case calculateDone success _ _ stateHash =>
    exact ⟨.bool success, fits_ofNat h.1, fits_intBytes h.2, fits_digest stateHash, nofun⟩

/-- The fields of a message are read as what they were. -/
theorem Body.InRange.ofPayload_payload {body : Body} (h : body.InRange) :
    Body.ofPayload body.kind body.payload = .ok body := by
  cases body with
  | version | calculate | commitBlock | commitClaim | queryCalculateStatus | rollback | init
  | ready =>
      simp only [Body.payload, Body.kind, Body.ofPayload, readNat_ofNat, readBool_bool,
        readDigest_digest, ok_bind, pure_eq_ok, readFields, mapError_ok]
  | claim _ _ _ _ _ iscore =>
      have hiscore := readIntBytes_intBytes h.2.2 "iscore"
      simp only [Body.payload, Body.kind, Body.ofPayload, readNat_ofNat, readAddress_address,
        readDigest_digest, hiscore, ok_bind, pure_eq_ok, readFields, mapError_ok]
  | query _ iscore _ =>
      have hiscore := readIntBytes_intBytes h.1 "iscore"
      simp only [Body.payload, Body.kind, Body.ofPayload, readNat_ofNat, readAddress_address,
        hiscore, ok_bind, pure_eq_ok, readFields, mapError_ok]
  | queryCalculateResult _ _ iscore _ =>
      have hiscore := readIntBytes_intBytes h.2.2 "iscore"
      simp only [Body.payload, Body.kind, Body.ofPayload, readNat_ofNat, readDigest_digest,
        hiscore, ok_bind, pure_eq_ok, readFields, mapError_ok]
  | calculateDone _ _ iscore _ =>
      have hiscore := readIntBytes_intBytes h.2 "iscore"
      simp only [Body.payload, Body.kind, Body.ofPayload, readNat_ofNat, readBool_bool,
        readDigest_digest, hiscore, ok_bind, pure_eq_ok, readFields, mapError_ok]

variable {message : Message}

theorem InRange.fits (h : message.InRange) : message.toValue.Fits depthBudget :=
  Envelope.fits_toValue h.id_le
    (Nat.lt_of_le_of_lt message.body.length_payload_le (by decide)) (h.body_inRange.fits _)

/-- The bytes of a message are its value. -/
theorem InRange.decodeValue_encode (h : message.InRange) :
    decodeValue message.encode = .ok message.toValue :=
  MsgPack.decodeValue_encode h.fits

/-- The value of a message is read as the message. -/
theorem InRange.ofValue_toValue (h : message.InRange) :
    Message.ofValue message.toValue = .ok message := by
  rw [Message.ofValue, Message.toValue, Envelope.ofValue_toValue, ok_bind]
  simp only [h.body_inRange.ofPayload_payload, mapError_ok, ok_bind, pure_eq_ok]

end Message

/-! ### Requests -/

namespace Request

open StakeLedger.Field

/-- Contents whose numbers are in the range of the wire, and whose path has a size that is. -/
def Body.InRange : Body → Prop
  | .version => True
  | .claim _ height _ txIndex _ => height ≤ maxHeight ∧ txIndex ≤ maxNumber
  | .query _ => True
  | .calculate path height => path.utf8ByteSize < 0x100000000 ∧ height ≤ maxHeight
  | .commitBlock _ height _ => height ≤ maxHeight
  | .commitClaim _ _ height _ txIndex _ => height ≤ maxHeight ∧ txIndex ≤ maxNumber
  | .queryCalculateStatus => True
  | .queryCalculateResult height => height ≤ maxHeight
  | .rollback height _ => height ≤ maxHeight
  | .init height => height ≤ maxHeight

/-- A request that the wire can carry. -/
structure InRange (request : Request) : Prop where
  id_le : request.id ≤ maxNumber
  body_inRange : request.body.InRange

theorem Body.length_payload_le (body : Body) : body.payload.length ≤ 6 := by
  cases body <;> simp [Body.payload]

/-- Every field of a request has a written form. -/
theorem Body.InRange.fits {body : Body} (h : body.InRange) (budget : Nat) :
    ∀ field ∈ body.payload, field.Fits (budget + 3) := by
  cases body <;> simp only [Body.payload, List.forall_mem_cons]
  case version => exact nofun
  case claim a _ blockHash _ txHash =>
    exact ⟨fits_address a, fits_ofNat h.1, fits_digest blockHash, fits_number h.2,
      fits_digest txHash, nofun⟩
  case query a => exact ⟨fits_address a, nofun⟩
  case calculate => exact ⟨fits_text h.1, fits_ofNat h.2, nofun⟩
  case commitBlock success _ blockHash =>
    exact ⟨.bool success, fits_ofNat h, fits_digest blockHash, nofun⟩
  case commitClaim success a _ blockHash _ txHash =>
    exact ⟨.bool success, fits_address a, fits_ofNat h.1, fits_digest blockHash,
      fits_number h.2, fits_digest txHash, nofun⟩
  case queryCalculateStatus => exact nofun
  case queryCalculateResult => exact ⟨fits_ofNat h, nofun⟩
  case rollback _ blockHash => exact ⟨fits_ofNat h, fits_digest blockHash, nofun⟩
  case init => exact ⟨fits_ofNat h, nofun⟩

/-- The fields of a request are read as what they were; nothing is asked of their size. -/
theorem Body.ofPayload_payload (body : Body) :
    Body.ofPayload body.kind body.payload = .ok body := by
  cases body <;>
    simp only [Body.payload, Body.kind, Body.ofPayload, readNat_ofNat, readBool_bool,
      readText_ofText, readAddress_address, readDigest_digest, ok_bind, pure_eq_ok, readFields,
      mapError_ok]

variable {request : Request}

theorem InRange.fits (h : request.InRange) : request.toValue.Fits depthBudget :=
  Envelope.fits_toValue h.id_le
    (Nat.lt_of_le_of_lt request.body.length_payload_le (by decide)) (h.body_inRange.fits _)

/-- The bytes of a request are its value. -/
theorem InRange.decodeValue_encode (h : request.InRange) :
    decodeValue request.encode = .ok request.toValue :=
  MsgPack.decodeValue_encode h.fits

/-- The value of a request is read as the request. -/
theorem ofValue_toValue (request : Request) :
    Request.ofValue request.toValue = .ok request := by
  rw [Request.ofValue, Request.toValue, Envelope.ofValue_toValue, ok_bind]
  simp only [Body.ofPayload_payload, mapError_ok, ok_bind, pure_eq_ok]

end Request

/-! ### Both directions -/

/-- **Every message and every request that the wire can carry reads back from its bytes.** -/
theorem exchanged_reads_back :
    (∀ message : Message, message.InRange →
      ∃ value, decodeValue message.encode = .ok value ∧ Message.ofValue value = .ok message) ∧
    ∀ request : Request, request.InRange →
      ∃ value, decodeValue request.encode = .ok value ∧ Request.ofValue value = .ok request :=
  ⟨fun _ h => ⟨_, h.decodeValue_encode, h.ofValue_toValue⟩,
    fun request h => ⟨_, h.decodeValue_encode, request.ofValue_toValue⟩⟩

/-- A claim of the least amount at the greatest height, and a request with a path. -/
theorem exchanged_reads_back_at_bounds :
    let claim : Message :=
      { id := 0xffffffffffffffff
        body := .claim ⟨.contract, List.replicate Address.bodySize 0xff, rfl⟩ 0xffffffffffffffff
          (.zero .block) 0 (.zero .transaction) (-0x80000000000000000000000000000000) }
    let calculation : Request := { id := 0, body := .calculate "/data/überblick" 0x100000000 }
    (claim.InRange ∧ calculation.InRange) ∧
      (∃ value, decodeValue claim.encode = .ok value ∧ Message.ofValue value = .ok claim) ∧
      ∃ value, decodeValue calculation.encode = .ok value ∧
        Request.ofValue value = .ok calculation := by
  intro claim calculation
  have hclaim : claim.InRange :=
    ⟨Nat.le_refl _, Nat.le_refl _, Nat.zero_le _, Int.le_refl _, by decide⟩
  have hcalculation : calculation.InRange := ⟨Nat.zero_le _, by decide, by decide⟩
  exact ⟨⟨hclaim, hcalculation⟩, exchanged_reads_back.1 claim hclaim,
    exchanged_reads_back.2 calculation hcalculation⟩

end StakeLedger
