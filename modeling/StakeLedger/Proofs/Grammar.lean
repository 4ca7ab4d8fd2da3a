/-
**The grammar of messages and requests.**

A message is an array of the number of its kind, its own number and its contents, field for field in
the order of a catalogue; a message without contents may also do without the third item.  Nothing
else is read as a message, and nothing in it goes unread.  The same holds of requests, whose
catalogue has no entry for the two kinds that only the calculator sends.

What is read as one message is therefore written in one way, but for the sign bytes that may stand
in front of an integer and for an empty payload that may be left out.

Main definitions:

* `StakeLedger.Content`, `StakeLedger.Content.Form` — the fields of messages, and the values that
  carry them;
* `StakeLedger.Message.Body.contents`, `StakeLedger.Request.Body.contents` — **the catalogue**;
* `StakeLedger.Carries` — the values that carry a kind, a number and contents;
* `StakeLedger.Variants` — values that differ in sign bytes and an empty payload alone.

Main results:

* `StakeLedger.Message.Body.ofPayload_eq_ok_iff`, `StakeLedger.Request.Body.ofPayload_eq_ok_iff` —
  the payloads that are read;
* `StakeLedger.Carries.variants` — values that carry the same are variants of each other;
* `StakeLedger.exchanged_iff_carried` — **what is read as a message or a request, and from which
  values**.
-/
import Mathlib.Data.List.Forall2
import StakeLedger.Proofs.Fields
import StakeLedger.Proofs.Messages
import StakeLedger.Proofs.SignBytes

set_option autoImplicit false

namespace StakeLedger

open Results
open MsgPack (Value)

/-! ### Fields -/

/-- A field of a message or a request. -/
inductive Content
  | number (n : Nat)
  | flag (b : Bool)
  | address (a : Address)
  | digest {subject : Digest.Subject} (d : Digest subject)
  /-- An integer as binary data. -/
  | integer (n : Int)
  | text (t : String)

/-- The values that carry a field. -/
def Content.Form : Content → Value → Prop
  | .number n, value => value = .ofNat n
  | .flag b, value => value = .bool b
  | .address a, value => value = Field.address a
  | .digest d, value => value = Field.digest d
  | .integer n, value => Field.IntForm n value
  | .text t, value => value = .ofText t

/-- Values that carry the same field: they are equal, or integers that differ in sign bytes. -/
inductive Content.Alike : Content → Value → Value → Prop
  | same (content : Content) (value : Value) : Alike content value value
  | wider (n : Int) (count : Nat) (bytes : Bytes) :
      Alike (.integer n) (.bin bytes) (.bin (bytes.widen count))
  | narrower (n : Int) (count : Nat) (bytes : Bytes) :
      Alike (.integer n) (.bin (bytes.widen count)) (.bin bytes)

/-- Lists of values that carry the same fields. -/
inductive AlikeFields : List Content → List Value → List Value → Prop
  | nil : AlikeFields [] [] []
  | cons {content : Content} {contents : List Content} {value other : Value}
      {values others : List Value} (first : content.Alike value other)
      (rest : AlikeFields contents values others) :
      AlikeFields (content :: contents) (value :: values) (other :: others)

section Fields

variable {content : Content} {contents : List Content} {value other : Value}
variable {values others : List Value}

theorem Content.Form.alike (h : content.Form value) (h' : content.Form other) :
    content.Alike value other := by
  cases content with
  | number | flag | address | digest | text =>
      cases h
      cases h'
      exact .same _ _
  | integer n =>
      cases h with
      | @bin bytes _ hspells =>
          cases h' with
          | @bin bytes' _ hspells' =>
              have hsame : bytes.toInt = bytes'.toInt := hspells.trans hspells'.symm
              -- the longer one of the two has the sign bytes
              rcases Nat.le_total bytes.length bytes'.length with hle | hle
              · obtain ⟨count, rfl⟩ := Bytes.widened_of_toInt_eq hle hsame
                exact .wider n count bytes
              · obtain ⟨count, rfl⟩ := Bytes.widened_of_toInt_eq hle hsame.symm
                exact .narrower n count bytes'

theorem alikeFields_of_forms (h : List.Forall₂ Content.Form contents values)
    (h' : List.Forall₂ Content.Form contents others) : AlikeFields contents values others := by
  induction h generalizing others with
  | nil =>
      cases h'
      exact .nil
  | cons first _ ih =>
      cases h' with
      | cons first' rest' => exact .cons (first.alike first') (ih rest')

end Fields

/-! ### Envelopes -/

/-- The values that carry a kind, a number and contents. -/
inductive Carries (kind : MessageKind) (id : Nat) (contents : List Content) : Value → Prop
  /-- Without contents there may be two items. -/
  | bare (none : contents = []) :
      Carries kind id contents (.array [.ofNat kind.tag, .ofNat id])
  | full {fields : List Value} (fields_form : List.Forall₂ Content.Form contents fields) :
      Carries kind id contents (.array [.ofNat kind.tag, .ofNat id, .array fields])

/-- Values that differ in sign bytes of the integers among their fields, and in an empty payload
that is there or not. -/
inductive Variants (contents : List Content) : Value → Value → Prop
  | same (value : Value) : Variants contents value value
  | fields {tag id : Value} {fields others : List Value}
      (alike : AlikeFields contents fields others) :
      Variants contents (.array [tag, id, .array fields]) (.array [tag, id, .array others])
  | dropped {tag id : Value} (none : contents = []) :
      Variants contents (.array [tag, id, .array []]) (.array [tag, id])
  | added {tag id : Value} (none : contents = []) :
      Variants contents (.array [tag, id]) (.array [tag, id, .array []])

/-- **Values that carry the same are variants of each other.** -/
theorem Carries.variants {kind : MessageKind} {id : Nat} {contents : List Content}
    {value other : Value} (h : Carries kind id contents value)
    (h' : Carries kind id contents other) : Variants contents value other := by
  cases h with
  | bare none =>
      cases h' with
      | bare => exact .same _
      | full fields_form =>
          subst none
          cases fields_form
          exact .added rfl
  | full fields_form =>
      cases h' with
      | bare none =>
          subst none
          cases fields_form
          exact .dropped rfl
      | full others_form => exact .fields (alikeFields_of_forms fields_form others_form)

/-- The number of the kind comes first. -/
theorem Carries.first_eq {kind : MessageKind} {id : Nat} {contents : List Content}
    {first : Value} {items : List Value} (h : Carries kind id contents (.array (first :: items))) :
    first = .ofNat kind.tag := by
  cases h with
  | bare | full => rfl

namespace Envelope

variable {value tag id : Value} {rest : List Value} {envelope : Envelope}

theorem readNumber_eq_ok_iff {malformation : Malformation} {n : Nat} :
    readNumber malformation value = .ok n ↔ value = .ofNat n := by
  constructor
  · intro h
    cases value with
    | int i =>
        rw [readNumber] at h
        split at h
        · next nonneg =>
            cases h
            rw [Value.ofNat, Int.toNat_of_nonneg nonneg]
        · cases h
    | nil | bool | float32 | float64 | str | bin | array | map | ext => cases h
  · rintro rfl
    simp [readNumber, Value.ofNat]

theorem readKind_eq_ok_iff {number : Nat} {kind : MessageKind} :
    readKind number = .ok kind ↔ number = kind.tag := by
  rw [← MessageKind.ofTag?_eq_some_iff, readKind]
  cases MessageKind.ofTag? number with
  | none =>
      constructor
      · intro h
        cases h
      · intro h
        cases h
  | some found => rw [Except.ok.injEq, Option.some.injEq]

theorem ofItems_eq_ok_iff :
    ofItems tag id rest = .ok envelope ↔
      tag = .ofNat envelope.kind.tag ∧ id = .ofNat envelope.id ∧
        readPayload envelope.kind rest = .ok envelope.payload := by
  constructor
  · intro h
    obtain ⟨number, hnumber, h⟩ := bind_eq_ok.1 h
    obtain ⟨kind, hkind, h⟩ := bind_eq_ok.1 h
    obtain ⟨i, hid, h⟩ := bind_eq_ok.1 h
    obtain ⟨payload, hpayload, henvelope⟩ := bind_eq_ok.1 h
    cases henvelope
    rw [readKind_eq_ok_iff.1 hkind] at hnumber
    exact ⟨readNumber_eq_ok_iff.1 hnumber, readNumber_eq_ok_iff.1 hid, hpayload⟩
  · rintro ⟨rfl, rfl, hpayload⟩
    simp only [ofItems, readNumber_eq_ok_iff.2 rfl, readKind_eq_ok_iff.2 rfl, ok_bind, hpayload,
      pure_eq_ok]

theorem readPayload_singleton_eq_ok_iff {kind : MessageKind} {payload : List Value} :
    readPayload kind [value] = .ok payload ↔ value = .array payload := by
  constructor
  · intro h
    cases value with
    | array items =>
        cases h
        rfl
    | nil | bool | int | float32 | float64 | str | bin | map | ext => cases h
  · rintro rfl
    rfl

/-- An envelope is read from two items without a payload, and from three with its payload. -/
theorem ofValue_eq_ok_iff :
    ofValue value = .ok envelope ↔
      (envelope.payload = [] ∧
        value = .array [.ofNat envelope.kind.tag, .ofNat envelope.id]) ∨
        value = .array [.ofNat envelope.kind.tag, .ofNat envelope.id, .array envelope.payload] := by
  constructor
  · intro h
    unfold ofValue at h
    split at h
    · obtain ⟨rfl, rfl, hpayload⟩ := ofItems_eq_ok_iff.1 h
      exact Or.inl ⟨(Except.ok.inj hpayload).symm, rfl⟩
    · obtain ⟨rfl, rfl, hpayload⟩ := ofItems_eq_ok_iff.1 h
      rw [readPayload_singleton_eq_ok_iff.1 hpayload]
      exact Or.inr rfl
    · cases h
    · cases h
  · rintro (⟨hpayload, rfl⟩ | rfl)
    · refine ofItems_eq_ok_iff.2 ⟨rfl, rfl, ?_⟩
      rw [hpayload]
      rfl
    · exact ofItems_eq_ok_iff.2 ⟨rfl, rfl, rfl⟩

end Envelope

/-- What is read from an envelope whose payload is read as contents carries these contents. -/
theorem exists_envelope_iff_carries {kind : MessageKind} {id : Nat} {contents : List Content}
    {value : Value} :
    (∃ envelope, Envelope.ofValue value = .ok envelope ∧ envelope.kind = kind ∧
      envelope.id = id ∧ List.Forall₂ Content.Form contents envelope.payload) ↔
      Carries kind id contents value := by
  constructor
  · rintro ⟨envelope, hvalue, rfl, rfl, hforms⟩
    obtain ⟨hpayload, rfl⟩ | rfl := Envelope.ofValue_eq_ok_iff.1 hvalue
    · rw [hpayload] at hforms
      cases hforms
      exact .bare rfl
    · exact .full hforms
  · intro h
    cases h with
    | bare none =>
        refine ⟨⟨kind, id, []⟩, Envelope.ofValue_eq_ok_iff.2 (Or.inl ⟨rfl, rfl⟩), rfl, rfl, ?_⟩
        rw [none]
        exact .nil
    | @full fields fields_form =>
        exact ⟨⟨kind, id, fields⟩, Envelope.ofValue_eq_ok_iff.2 (Or.inr rfl), rfl, rfl, fields_form⟩

/-- A reader of envelopes whose payloads it reads as contents reads what carries these contents. -/
theorem carried_iff {β γ : Type} {ofPayload : MessageKind → List Value → Except PayloadFault β}
    {make : Nat → β → γ} {kindOf : β → MessageKind} {contentsOf : β → List Content}
    (make_inj : ∀ {i j b c}, make i b = make j c → i = j ∧ b = c)
    (accepts : ∀ {kind payload body}, ofPayload kind payload = .ok body ↔
      kind = kindOf body ∧ List.Forall₂ Content.Form (contentsOf body) payload)
    {value : Value} {id : Nat} {body : β} :
    (do
      let envelope ← Envelope.ofValue value
      let body ← (ofPayload envelope.kind envelope.payload).mapError envelope.explain
      return make envelope.id body : Except ProtocolError γ) = .ok (make id body) ↔
      Carries (kindOf body) id (contentsOf body) value := by
  rw [← exists_envelope_iff_carries, bind_eq_ok]
  constructor
  · rintro ⟨envelope, hvalue, h⟩
    obtain ⟨found, hfound, hmade⟩ := bind_eq_ok.1 h
    obtain ⟨hid, rfl⟩ := make_inj (Except.ok.inj hmade)
    obtain ⟨hkind, hforms⟩ := accepts.1 (mapError_eq_ok.1 hfound)
    exact ⟨envelope, hvalue, hkind, hid, hforms⟩
  · rintro ⟨envelope, hvalue, hkind, hid, hforms⟩
    refine ⟨envelope, hvalue, ?_⟩
    rw [accepts.2 ⟨hkind, hforms⟩, hid]
    rfl

/-! ### Messages -/

namespace Message

open StakeLedger.Field

/-- **The fields of each message**, in their order. -/
def Body.contents : Body → List Content
  | .version number height => [.number number, .number height]
  | .claim a height blockHash txIndex txHash iscore =>
      [.address a, .number height, .digest blockHash, .number txIndex, .digest txHash,
        .integer iscore]
  | .query a iscore height => [.address a, .integer iscore, .number height]
  | .calculate status height => [.number status, .number height]
  | .commitBlock success height blockHash => [.flag success, .number height, .digest blockHash]
  | .commitClaim => []
  | .queryCalculateStatus status height => [.number status, .number height]
  | .queryCalculateResult status height iscore stateHash =>
      [.number status, .number height, .integer iscore, .digest stateHash]
  | .rollback success height blockHash => [.flag success, .number height, .digest blockHash]
  | .init success height => [.flag success, .number height]
  | .ready number height blockHash => [.number number, .number height, .digest blockHash]
  | .calculateDone success height iscore stateHash =>
      [.flag success, .number height, .integer iscore, .digest stateHash]

theorem Body.forms_of_ofPayload {kind : MessageKind} {payload : List Value} {body : Body}
    (h : Body.ofPayload kind payload = .ok body) :
    kind = body.kind ∧ List.Forall₂ Content.Form body.contents payload := by
  cases kind with
  | version | calculate | queryCalculateStatus =>
      simp only [ofPayload] at h
      split at h
      · simp only [readFields, mapError_eq_ok, bind_eq_ok, readNat_eq_ok_iff] at h
        obtain ⟨number, hnumber, height, hheight, hbody⟩ := h
        cases hbody
        exact ⟨rfl, .cons hnumber (.cons hheight .nil)⟩
      · cases h
  | claim =>
      simp only [ofPayload] at h
      split at h
      · simp only [readFields, mapError_eq_ok, bind_eq_ok, readAddress_eq_ok_iff, readNat_eq_ok_iff,
          readDigest_eq_ok_iff, readIntBytes_eq_ok_iff] at h
        obtain ⟨a, ha, height, hheight, block, hblock, index, hindex, transaction, htransaction,
          iscore, hiscore, hbody⟩ := h
        cases hbody
        exact ⟨rfl, .cons ha (.cons hheight (.cons hblock (.cons hindex
          (.cons htransaction (.cons hiscore .nil)))))⟩
      · cases h
  | query =>
      simp only [ofPayload] at h
      split at h
      · simp only [readFields, mapError_eq_ok, bind_eq_ok, readAddress_eq_ok_iff, readNat_eq_ok_iff,
          readIntBytes_eq_ok_iff] at h
        obtain ⟨a, ha, iscore, hiscore, height, hheight, hbody⟩ := h
        cases hbody
        exact ⟨rfl, .cons ha (.cons hiscore (.cons hheight .nil))⟩
      · cases h
  | commitBlock | rollback =>
      simp only [ofPayload] at h
      split at h
      · simp only [readFields, mapError_eq_ok, bind_eq_ok, readBool_eq_ok_iff, readNat_eq_ok_iff,
          readDigest_eq_ok_iff] at h
        obtain ⟨success, hsuccess, height, hheight, block, hblock, hbody⟩ := h
        cases hbody
        exact ⟨rfl, .cons hsuccess (.cons hheight (.cons hblock .nil))⟩
      · cases h
  | commitClaim =>
      simp only [ofPayload] at h
      split at h
      · cases h
        exact ⟨rfl, .nil⟩
      · cases h
  | queryCalculateResult =>
      simp only [ofPayload] at h
      split at h
      · simp only [readFields, mapError_eq_ok, bind_eq_ok, readNat_eq_ok_iff, readDigest_eq_ok_iff,
          readIntBytes_eq_ok_iff] at h
        obtain ⟨status, hstatus, height, hheight, iscore, hiscore, state, hstate, hbody⟩ := h
        cases hbody
        exact ⟨rfl, .cons hstatus (.cons hheight (.cons hiscore (.cons hstate .nil)))⟩
      · cases h
  | init =>
      simp only [ofPayload] at h
      split at h
      · simp only [readFields, mapError_eq_ok, bind_eq_ok, readBool_eq_ok_iff, readNat_eq_ok_iff]
          at h
        obtain ⟨success, hsuccess, height, hheight, hbody⟩ := h
        cases hbody
        exact ⟨rfl, .cons hsuccess (.cons hheight .nil)⟩
      · cases h
  | ready =>
      simp only [ofPayload] at h
      split at h
      · simp only [readFields, mapError_eq_ok, bind_eq_ok, readNat_eq_ok_iff, readDigest_eq_ok_iff]
          at h
        obtain ⟨number, hnumber, height, hheight, block, hblock, hbody⟩ := h
        cases hbody
        exact ⟨rfl, .cons hnumber (.cons hheight (.cons hblock .nil))⟩
      · cases h
  | calculateDone =>
      simp only [ofPayload] at h
      split at h
      · simp only [readFields, mapError_eq_ok, bind_eq_ok, readBool_eq_ok_iff, readNat_eq_ok_iff,
          readDigest_eq_ok_iff, readIntBytes_eq_ok_iff] at h
        obtain ⟨success, hsuccess, height, hheight, iscore, hiscore, state, hstate, hbody⟩ := h
        cases hbody
        exact ⟨rfl, .cons hsuccess (.cons hheight (.cons hiscore (.cons hstate .nil)))⟩
      · cases h

theorem Body.ofPayload_of_forms {body : Body} {payload : List Value}
    (h : List.Forall₂ Content.Form body.contents payload) :
    Body.ofPayload body.kind payload = .ok body := by
  cases body with
  | version | calculate | queryCalculateStatus =>
      obtain _ | ⟨rfl, _ | ⟨rfl, ⟨⟩⟩⟩ := h
      simp only [ofPayload, kind, readNat_ofNat, ok_bind, pure_eq_ok, readFields, mapError_ok]
  | claim =>
      obtain _ | ⟨rfl, _ | ⟨rfl, _ | ⟨rfl, _ | ⟨rfl, _ | ⟨rfl, _ | ⟨hiscore, ⟨⟩⟩⟩⟩⟩⟩⟩ := h
      simp only [ofPayload, kind, readAddress_address, readNat_ofNat, readDigest_digest,
        readIntBytes_eq_ok_iff.2 hiscore, ok_bind, pure_eq_ok, readFields, mapError_ok]
  | query =>
      obtain _ | ⟨rfl, _ | ⟨hiscore, _ | ⟨rfl, ⟨⟩⟩⟩⟩ := h
      simp only [ofPayload, kind, readAddress_address, readNat_ofNat,
        readIntBytes_eq_ok_iff.2 hiscore, ok_bind, pure_eq_ok, readFields, mapError_ok]
  | commitBlock | rollback =>
      obtain _ | ⟨rfl, _ | ⟨rfl, _ | ⟨rfl, ⟨⟩⟩⟩⟩ := h
      simp only [ofPayload, kind, readBool_bool, readNat_ofNat, readDigest_digest, ok_bind,
        pure_eq_ok, readFields, mapError_ok]
  | commitClaim =>
      cases h
      rfl
  | queryCalculateResult =>
      obtain _ | ⟨rfl, _ | ⟨rfl, _ | ⟨hiscore, _ | ⟨rfl, ⟨⟩⟩⟩⟩⟩ := h
      simp only [ofPayload, kind, readNat_ofNat, readDigest_digest,
        readIntBytes_eq_ok_iff.2 hiscore, ok_bind, pure_eq_ok, readFields, mapError_ok]
  | init =>
      obtain _ | ⟨rfl, _ | ⟨rfl, ⟨⟩⟩⟩ := h
      simp only [ofPayload, kind, readBool_bool, readNat_ofNat, ok_bind, pure_eq_ok, readFields,
        mapError_ok]
  | ready =>
      obtain _ | ⟨rfl, _ | ⟨rfl, _ | ⟨rfl, ⟨⟩⟩⟩⟩ := h
      simp only [ofPayload, kind, readNat_ofNat, readDigest_digest, ok_bind, pure_eq_ok, readFields,
        mapError_ok]
  | calculateDone =>
      obtain _ | ⟨rfl, _ | ⟨rfl, _ | ⟨hiscore, _ | ⟨rfl, ⟨⟩⟩⟩⟩⟩ := h
      simp only [ofPayload, kind, readBool_bool, readNat_ofNat, readDigest_digest,
        readIntBytes_eq_ok_iff.2 hiscore, ok_bind, pure_eq_ok, readFields, mapError_ok]

/-- The payloads that are read as the contents of a message. -/
theorem Body.ofPayload_eq_ok_iff {kind : MessageKind} {payload : List Value} {body : Body} :
    Body.ofPayload kind payload = .ok body ↔
      kind = body.kind ∧ List.Forall₂ Content.Form body.contents payload := by
  refine ⟨forms_of_ofPayload, ?_⟩
  rintro ⟨rfl, hforms⟩
  exact ofPayload_of_forms hforms

/-- Only one kind of message has no contents. -/
theorem Body.eq_commitClaim_of_bare {body : Body} {id : Nat} {first second : Value}
    (h : Carries body.kind id body.contents (.array [first, second])) : body = .commitClaim := by
  cases h with
  | bare none =>
      cases body with
      | commitClaim => rfl
      | _ => cases none

/-- **A value is read as a message exactly if it carries it.** -/
theorem ofValue_eq_ok_iff {value : Value} {message : Message} :
    ofValue value = .ok message ↔
      Carries message.body.kind message.id message.body.contents value :=
  @carried_iff _ _ Body.ofPayload Message.mk Body.kind Body.contents Message.mk.inj
    Body.ofPayload_eq_ok_iff value message.id message.body

end Message

/-! ### Requests -/

namespace Request

open StakeLedger.Field

/-- **The fields of each request**, in their order. -/
def Body.contents : Body → List Content
  | .version => []
  | .claim a height blockHash txIndex txHash =>
      [.address a, .number height, .digest blockHash, .number txIndex, .digest txHash]
  | .query a => [.address a]
  | .calculate path height => [.text path, .number height]
  | .commitBlock success height blockHash => [.flag success, .number height, .digest blockHash]
  | .commitClaim success a height blockHash txIndex txHash =>
      [.flag success, .address a, .number height, .digest blockHash, .number txIndex,
        .digest txHash]
  | .queryCalculateStatus => []
  | .queryCalculateResult height => [.number height]
  | .rollback height blockHash => [.number height, .digest blockHash]
  | .init height => [.number height]

theorem Body.forms_of_ofPayload {kind : MessageKind} {payload : List Value} {body : Body}
    (h : Body.ofPayload kind payload = .ok body) :
    kind = body.kind ∧ List.Forall₂ Content.Form body.contents payload := by
  cases kind with
  | version | queryCalculateStatus =>
      simp only [ofPayload] at h
      split at h
      · cases h
        exact ⟨rfl, .nil⟩
      · cases h
  | claim =>
      simp only [ofPayload] at h
      split at h
      · simp only [readFields, mapError_eq_ok, bind_eq_ok, readAddress_eq_ok_iff, readNat_eq_ok_iff,
          readDigest_eq_ok_iff] at h
        obtain ⟨a, ha, height, hheight, block, hblock, index, hindex, transaction, htransaction,
          hbody⟩ := h
        cases hbody
        exact ⟨rfl, .cons ha (.cons hheight (.cons hblock (.cons hindex
          (.cons htransaction .nil))))⟩
      · cases h
  | query =>
      simp only [ofPayload] at h
      split at h
      · simp only [readFields, mapError_eq_ok, bind_eq_ok, readAddress_eq_ok_iff] at h
        obtain ⟨a, ha, hbody⟩ := h
        cases hbody
        exact ⟨rfl, .cons ha .nil⟩
      · cases h
  | calculate =>
      simp only [ofPayload] at h
      split at h
      · simp only [readFields, mapError_eq_ok, bind_eq_ok, readText_eq_ok_iff, readNat_eq_ok_iff]
          at h
        obtain ⟨path, hpath, height, hheight, hbody⟩ := h
        cases hbody
        exact ⟨rfl, .cons hpath (.cons hheight .nil)⟩
      · cases h
  | commitBlock =>
      simp only [ofPayload] at h
      split at h
      · simp only [readFields, mapError_eq_ok, bind_eq_ok, readBool_eq_ok_iff, readNat_eq_ok_iff,
          readDigest_eq_ok_iff] at h
        obtain ⟨success, hsuccess, height, hheight, block, hblock, hbody⟩ := h
        cases hbody
        exact ⟨rfl, .cons hsuccess (.cons hheight (.cons hblock .nil))⟩
      · cases h
  | commitClaim =>
      simp only [ofPayload] at h
      split at h
      · simp only [readFields, mapError_eq_ok, bind_eq_ok, readBool_eq_ok_iff,
          readAddress_eq_ok_iff, readNat_eq_ok_iff, readDigest_eq_ok_iff] at h
        obtain ⟨success, hsuccess, a, ha, height, hheight, block, hblock, index, hindex,
          transaction, htransaction, hbody⟩ := h
        cases hbody
        exact ⟨rfl, .cons hsuccess (.cons ha (.cons hheight (.cons hblock (.cons hindex
          (.cons htransaction .nil)))))⟩
      · cases h
  | queryCalculateResult | init =>
      simp only [ofPayload] at h
      split at h
      · simp only [readFields, mapError_eq_ok, bind_eq_ok, readNat_eq_ok_iff] at h
        obtain ⟨height, hheight, hbody⟩ := h
        cases hbody
        exact ⟨rfl, .cons hheight .nil⟩
      · cases h
  | rollback =>
      simp only [ofPayload] at h
      split at h
      · simp only [readFields, mapError_eq_ok, bind_eq_ok, readNat_eq_ok_iff, readDigest_eq_ok_iff]
          at h
        obtain ⟨height, hheight, block, hblock, hbody⟩ := h
        cases hbody
        exact ⟨rfl, .cons hheight (.cons hblock .nil)⟩
      · cases h
  | ready | calculateDone => cases h

theorem Body.payload_of_forms {body : Body} {payload : List Value}
    (h : List.Forall₂ Content.Form body.contents payload) : payload = body.payload := by
  cases body with
  | version | queryCalculateStatus =>
      cases h
      rfl
  | query | queryCalculateResult | init =>
      obtain _ | ⟨rfl, ⟨⟩⟩ := h
      rfl
  | calculate | rollback =>
      obtain _ | ⟨rfl, _ | ⟨rfl, ⟨⟩⟩⟩ := h
      rfl
  | commitBlock =>
      obtain _ | ⟨rfl, _ | ⟨rfl, _ | ⟨rfl, ⟨⟩⟩⟩⟩ := h
      rfl
  | claim =>
      obtain _ | ⟨rfl, _ | ⟨rfl, _ | ⟨rfl, _ | ⟨rfl, _ | ⟨rfl, ⟨⟩⟩⟩⟩⟩⟩ := h
      rfl
  | commitClaim =>
      obtain _ | ⟨rfl, _ | ⟨rfl, _ | ⟨rfl, _ | ⟨rfl, _ | ⟨rfl, _ | ⟨rfl, ⟨⟩⟩⟩⟩⟩⟩⟩ := h
      rfl

/-- The payloads that are read as the contents of a request. -/
theorem Body.ofPayload_eq_ok_iff {kind : MessageKind} {payload : List Value} {body : Body} :
    Body.ofPayload kind payload = .ok body ↔
      kind = body.kind ∧ List.Forall₂ Content.Form body.contents payload := by
  refine ⟨forms_of_ofPayload, ?_⟩
  rintro ⟨rfl, hforms⟩
  rw [payload_of_forms hforms, ofPayload_payload]

/-- **A value is read as a request exactly if it carries it.** -/
theorem ofValue_eq_ok_iff {value : Value} {request : Request} :
    ofValue value = .ok request ↔
      Carries request.body.kind request.id request.body.contents value :=
  @carried_iff _ _ Body.ofPayload Request.mk Body.kind Body.contents Request.mk.inj
    Body.ofPayload_eq_ok_iff value request.id request.body

/-- No request is of a kind that only the calculator sends. -/
theorem Body.kind_isNotification (body : Body) : body.kind.isNotification = false := by
  cases body <;> rfl

/-- **No value with the number of a notification is read as a request.** -/
theorem ofValue_notification {kind : MessageKind} (h : kind.isNotification = true)
    (items : List Value) :
    ∃ error, ofValue (.array (.ofNat kind.tag :: items)) = .error error := by
  cases hread : ofValue (.array (.ofNat kind.tag :: items)) with
  | error error => exact ⟨error, rfl⟩
  | ok request =>
      have htag := (ofValue_eq_ok_iff.1 hread).first_eq
      have hkind : kind = request.body.kind := by
        rw [← Option.some.injEq, ← MessageKind.ofTag?_tag, Int.ofNat.inj (Value.int.inj htag),
          MessageKind.ofTag?_tag]
      rw [hkind, Body.kind_isNotification] at h
      cases h

end Request

/-! ### Both directions -/

/-- **What is read as a message or a request, and from which values**: from those that carry it, of
which any two are variants of each other.  Only a message without contents may do without a payload,
and no notification is read as a request. -/
theorem exchanged_iff_carried :
    (∀ value message, Message.ofValue value = .ok message ↔
      Carries message.body.kind message.id message.body.contents value) ∧
    (∀ value request, Request.ofValue value = .ok request ↔
      Carries request.body.kind request.id request.body.contents value) ∧
    (∀ tag id message, Message.ofValue (.array [tag, id]) = .ok message →
      message.body = .commitClaim) ∧
    (∀ kind : MessageKind, kind.isNotification = true → ∀ items,
      ∃ error, Request.ofValue (.array (.ofNat kind.tag :: items)) = .error error) ∧
    (∀ value other message, Message.ofValue value = .ok message →
      Message.ofValue other = .ok message → Variants message.body.contents value other) ∧
    ∀ value other request, Request.ofValue value = .ok request →
      Request.ofValue other = .ok request → Variants request.body.contents value other := by
  refine ⟨fun _ _ => Message.ofValue_eq_ok_iff, fun _ _ => Request.ofValue_eq_ok_iff, ?_,
    fun _ => Request.ofValue_notification, ?_, ?_⟩
  · intro tag id message h
    exact Message.Body.eq_commitClaim_of_bare (Message.ofValue_eq_ok_iff.1 h)
  · intro value other message h h'
    exact (Message.ofValue_eq_ok_iff.1 h).variants (Message.ofValue_eq_ok_iff.1 h')
  · intro value other request h h'
    exact (Request.ofValue_eq_ok_iff.1 h).variants (Request.ofValue_eq_ok_iff.1 h')

/-- An answer to a query, with the integer in the bytes given. -/
def answerWith (iscore : Bytes) : Value :=
  .array [.ofNat 2, .ofNat 7,
    .array [Field.address Account.small.address, .bin iscore, .ofNat 100]]

/-- An integer with two sign bytes in front, and a notification in the place of a request. -/
theorem exchanged_iff_carried_widened :
    Variants [.address Account.small.address, .integer (-3), .number 100]
        (answerWith [0xfd]) (answerWith [0xff, 0xff, 0xfd]) ∧
      ∃ error, Request.ofValue (.array [.ofNat 100, .ofNat 0]) = .error error := by
  obtain ⟨-, -, -, hnotification, hvariants, -⟩ := exchanged_iff_carried
  have hshort : Message.ofValue (answerWith [0xfd]) =
      .ok ⟨7, .query Account.small.address (-3) 100⟩ := rfl
  have hlong : Message.ofValue (answerWith [0xff, 0xff, 0xfd]) =
      .ok ⟨7, .query Account.small.address (-3) 100⟩ := rfl
  exact ⟨hvariants _ _ _ hshort hlong, hnotification .ready rfl _⟩

end StakeLedger
