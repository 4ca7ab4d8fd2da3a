/-
**What the readers of fields accept.**

Most fields are read from one value only, the one that they are written as.  An amount is read from
two: from an integer of the format, and from data of its own type, in which any number of sign bytes
may stand in front as long as there are no more than sixteen bytes in all.  An integer that is
binary data is read from as many forms.

Main definitions:

* `StakeLedger.Field.AmountForm`, `StakeLedger.Field.IntForm` — **the values that an amount and an
  integer are read from**.

Main results:

* `StakeLedger.Field.readAmount_eq_ok_iff`, `StakeLedger.Field.readIntBytes_eq_ok_iff` and their
  companions — what is read, and from which values.
-/
import StakeLedger.Codec.Field
import StakeLedger.Proofs.Results

set_option autoImplicit false

namespace StakeLedger

open Results
open MsgPack (Value)

theorem Amount.ofBytes_eq_ok_iff {bytes : Bytes} {n : Int} :
    ofBytes bytes = .ok n ↔ bytes.length ≤ 16 ∧ bytes.toInt = n := by
  rw [ofBytes, refused_or_eq_ok, Nat.not_lt, Except.ok.injEq]

theorem Address.ofBytes_eq_ok_iff {bytes : Bytes} {a : Address} :
    ofBytes bytes = .ok a ↔ bytes = a.toBytes := by
  constructor
  · intro h
    cases bytes with
    | nil => cases h
    | cons b body =>
        rw [ofBytes] at h
        split at h
        · split at h
          · next kind hkind =>
              cases h
              rw [toBytes, Kind.ofByte?_eq_some_iff.1 hkind]
          · cases h
        · cases h
  · rintro rfl
    exact ofBytes_toBytes a

namespace Field

/-- The values that an amount is read from. -/
inductive AmountForm (n : Int) : Value → Prop
  | int : AmountForm n (.int n)
  | ext {data : Bytes} (length_le : data.length ≤ 16) (spells : data.toInt = n) :
      AmountForm n (.ext amountType data)

/-- The values that an integer is read from where binary data is asked for. -/
inductive IntForm (n : Int) : Value → Prop
  | bin {bytes : Bytes} (length_le : bytes.length ≤ 16) (spells : bytes.toInt = n) :
      IntForm n (.bin bytes)

variable {name : String} {value : Value}

theorem readNat_eq_ok_iff {n : Nat} : readNat name value = .ok n ↔ value = .ofNat n := by
  constructor
  · intro h
    cases value with
    | int i =>
        rw [readNat] at h
        split at h
        · next nonneg =>
            cases h
            rw [Value.ofNat, Int.toNat_of_nonneg nonneg]
        · cases h
    | nil | bool | float32 | float64 | str | bin | array | map | ext => cases h
  · rintro rfl
    exact readNat_ofNat name n

theorem readByte_eq_ok_iff {b : UInt8} :
    readByte name value = .ok b ↔ value = .ofNat b.toNat := by
  rw [readByte, bind_eq_ok]
  constructor
  · rintro ⟨n, hn, hb⟩
    split at hb
    · next hlt =>
        cases hb
        rw [readNat_eq_ok_iff.1 hn, UInt8.toNat_ofNat_of_lt' hlt]
    · cases hb
  · rintro rfl
    refine ⟨_, readNat_ofNat name _, ?_⟩
    rw [if_pos b.toNat_lt, UInt8.ofNat_toNat]
    rfl

theorem readBool_eq_ok_iff {b : Bool} : readBool name value = .ok b ↔ value = .bool b := by
  constructor
  · intro h
    cases value with
    | bool =>
        cases h
        rfl
    | nil | int | float32 | float64 | str | bin | array | map | ext => cases h
  · rintro rfl
    rfl

theorem readBytes_eq_ok_iff {bytes : Bytes} :
    readBytes name value = .ok bytes ↔ value = .bin bytes := by
  constructor
  · intro h
    cases value with
    | bin =>
        cases h
        rfl
    | nil | bool | int | float32 | float64 | str | array | map | ext => cases h
  · rintro rfl
    rfl

theorem readText_eq_ok_iff {text : String} :
    readText name value = .ok text ↔ value = .ofText text := by
  constructor
  · intro h
    cases value with
    | str bytes =>
        rw [readText] at h
        split at h
        · next found hfound =>
            cases h
            rw [Value.ofText, Bytes.text?_eq_some_iff.1 hfound]
        · cases h
    | nil | bool | int | float32 | float64 | bin | array | map | ext => cases h
  · rintro rfl
    exact readText_ofText name text

theorem readArray_eq_ok_iff {items : List Value} :
    readArray name value = .ok items ↔ value = .array items := by
  constructor
  · intro h
    cases value with
    | array =>
        cases h
        rfl
    | nil | bool | int | float32 | float64 | str | bin | map | ext => cases h
  · rintro rfl
    rfl

theorem readAmount_eq_ok_iff {n : Int} : readAmount name value = .ok n ↔ AmountForm n value := by
  constructor
  · intro h
    cases value with
    | int =>
        cases h
        exact .int
    | ext type data =>
        rw [readAmount] at h
        split at h
        · next htype =>
            obtain ⟨hlength, hspells⟩ := Amount.ofBytes_eq_ok_iff.1 h
            rw [htype]
            exact .ext hlength hspells
        · cases h
    | nil | bool | float32 | float64 | str | bin | array | map => cases h
  · intro h
    cases h with
    | int => rfl
    | ext hlength hspells =>
        rw [readAmount, if_pos rfl]
        exact Amount.ofBytes_eq_ok_iff.2 ⟨hlength, hspells⟩

theorem readIntBytes_eq_ok_iff {n : Int} :
    readIntBytes name value = .ok n ↔ IntForm n value := by
  rw [readIntBytes, bind_eq_ok]
  constructor
  · rintro ⟨bytes, hbytes, hn⟩
    obtain ⟨hlength, hspells⟩ := Amount.ofBytes_eq_ok_iff.1 hn
    rw [readBytes_eq_ok_iff.1 hbytes]
    exact .bin hlength hspells
  · rintro ⟨hlength, hspells⟩
    exact ⟨_, rfl, Amount.ofBytes_eq_ok_iff.2 ⟨hlength, hspells⟩⟩

theorem readAddress_eq_ok_iff {a : Address} :
    readAddress name value = .ok a ↔ value = address a := by
  rw [readAddress, bind_eq_ok]
  constructor
  · rintro ⟨bytes, hbytes, ha⟩
    rw [readBytes_eq_ok_iff.1 hbytes, address, Address.ofBytes_eq_ok_iff.1 (mapError_eq_ok.1 ha)]
  · rintro rfl
    exact ⟨_, rfl, mapError_eq_ok.2 (Address.ofBytes_toBytes a)⟩

theorem readDigest_eq_ok_iff {subject : Digest.Subject} {d : Digest subject} :
    readDigest name value = .ok d ↔ value = digest d := by
  rw [readDigest, bind_eq_ok]
  constructor
  · rintro ⟨bytes, hbytes, hd⟩
    rw [digestOfBytes] at hd
    split at hd
    · next found hfound =>
        cases hd
        rw [readBytes_eq_ok_iff.1 hbytes, digest, Digest.ofBytes?_eq_some_iff.1 hfound]
    · cases hd
  · rintro rfl
    refine ⟨_, rfl, ?_⟩
    rw [digestOfBytes, Digest.ofBytes?_bytes]

end Field

end StakeLedger
