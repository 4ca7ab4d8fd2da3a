/-
**The numbers that are read.**

A field of a few bytes spells a number in a range that the width of the field gives.  So whatever
the bytes are that a value is read from, its numbers are in the ranges of the format, however deep
they are nested, and an amount that is read, in either of its forms, is an amount.  With that the
delegation parts that come from records hold amounts, none of them negative, and so do those that
changes lead to.

Main definitions:

* `StakeLedger.MsgPack.Value.Ranged` — values whose numbers are in the ranges of the format;
* `StakeLedger.DelegationPart.Made` — the delegation parts that are made.

Main results:

* `StakeLedger.Bytes.toNat_lt`, `StakeLedger.Bytes.toInt_bounds` — what a number of bytes can spell;
* `StakeLedger.MsgPack.Value.Form.ranged`, `StakeLedger.MsgPack.ranged_of_decodeValue` — what has a
  form, and so what is read, has its numbers in their ranges;
* `StakeLedger.MsgPack.Value.Form.length_lt` — an array that has a form has fewer than `2 ^ 32`
  items;
* `StakeLedger.Field.inRange_of_readAmount` — amounts that are read are in the range of amounts;
* `StakeLedger.DelegationPart.Made.inRange` — delegation parts that are made hold amounts, none of
  them negative.
-/
import StakeLedger.Proofs.Forms
import StakeLedger.Proofs.Loaded

set_option autoImplicit false

namespace StakeLedger

open Results

/-! ### Numbers in bytes -/

namespace Bytes

theorem pow_256_succ (k : Nat) : Nat.pow 256 (k + 1) = 256 * Nat.pow 256 k := Nat.mul_comm _ _

/-- A number below a bound is below 256 times the bound once another byte has joined it. -/
theorem foldl_lt (bytes : Bytes) {n bound : Nat} (h : n < bound) :
    bytes.foldl (fun n b => n * 256 + b.toNat) n < bound * Nat.pow 256 bytes.length := by
  induction bytes generalizing n bound with
  | nil => exact (Nat.mul_one bound).symm ▸ h
  | cons b rest ih =>
      have hb := b.toNat_lt
      have hrest := @ih (n * 256 + b.toNat) (bound * 256) (by omega)
      rwa [Nat.mul_assoc, ← pow_256_succ] at hrest

theorem toNat_lt (bytes : Bytes) : bytes.toNat < Nat.pow 256 bytes.length := by
  have h := foldl_lt bytes (show 0 < 1 by decide)
  rwa [Nat.one_mul] at h

/-- The same for a number with a sign, which is no less than the bound below zero. -/
theorem foldl_bounds (bytes : Bytes) {n : Int} {bound : Nat} (lower : -(bound : Int) ≤ n)
    (upper : n < bound) :
    -((bound * Nat.pow 256 bytes.length : Nat) : Int) ≤
        bytes.foldl (fun (n : Int) (b : UInt8) => n * 256 + (b.toNat : Int)) n ∧
      bytes.foldl (fun (n : Int) (b : UInt8) => n * 256 + (b.toNat : Int)) n <
        ((bound * Nat.pow 256 bytes.length : Nat) : Int) := by
  induction bytes generalizing n bound with
  | nil =>
      rw [List.length_nil, show bound * Nat.pow 256 0 = bound from Nat.mul_one bound]
      exact ⟨lower, upper⟩
  | cons b rest ih =>
      have hb := b.toNat_lt
      have hrest := @ih (n * 256 + b.toNat) (bound * 256) (by omega) (by omega)
      rwa [Nat.mul_assoc, ← pow_256_succ] at hrest

/-- A two's complement number that takes no more than a byte and `width` bytes more. -/
theorem toInt_bounds {bytes : Bytes} {width : Nat} (h : bytes.length ≤ width + 1) :
    -((128 * Nat.pow 256 width : Nat) : Int) ≤ bytes.toInt ∧
      bytes.toInt < ((128 * Nat.pow 256 width : Nat) : Int) := by
  cases bytes with
  | nil =>
      have hpos : 0 < Nat.pow 256 width := Nat.pow_pos (by decide)
      rw [toInt_nil]
      omega
  | cons b rest =>
      have hb := b.toNat_lt
      have hsign : -((128 : Nat) : Int) ≤ signed b ∧ signed b < ((128 : Nat) : Int) := by
        unfold signed
        split <;> omega
      have hbounds := foldl_bounds rest hsign.1 hsign.2
      have hwider : Nat.pow 256 rest.length ≤ Nat.pow 256 width :=
        Nat.pow_le_pow_right (by decide) (Nat.le_of_succ_le_succ h)
      have hspelled : toInt (b :: rest) =
          rest.foldl (fun (n : Int) (b : UInt8) => n * 256 + (b.toNat : Int)) (signed b) := rfl
      rw [hspelled]
      omega

end Bytes

/-- An integer that 16 bytes spell is an amount. -/
theorem Amount.inRange_of_ofBytes {bytes : Bytes} {n : Int} (h : ofBytes bytes = .ok n) :
    InRange n := by
  obtain ⟨hlength, hn⟩ := refused_or_eq_ok.1 h
  cases hn
  have hbounds := @Bytes.toInt_bounds bytes 15 (Nat.not_lt.1 hlength)
  rw [show ((128 * Nat.pow 256 15 : Nat) : Int) = greatest + 1 by decide] at hbounds
  have hleast : least = -(greatest + 1) := by decide
  exact ⟨hleast ▸ hbounds.1, Int.le_of_lt_add_one hbounds.2⟩

namespace MsgPack

/-! ### Values in range -/

/-- Values whose numbers are in the ranges of the format, and so are those of the values in them. -/
inductive Value.Ranged : Value → Prop
  | nil : Ranged .nil
  | bool (b : Bool) : Ranged (.bool b)
  | int {n : Int} (least : -0x8000000000000000 ≤ n) (greatest : n < 0x10000000000000000) :
      Ranged (.int n)
  | float32 (bits : UInt32) : Ranged (.float32 bits)
  | float64 (bits : UInt64) : Ranged (.float64 bits)
  | str (bytes : Bytes) : Ranged (.str bytes)
  | bin (bytes : Bytes) : Ranged (.bin bytes)
  | array {items : List Value} (items_ranged : ∀ item ∈ items, Ranged item) : Ranged (.array items)
  | map {entries : List (Value × Value)} (keys_ranged : ∀ entry ∈ entries, Ranged entry.1)
      (values_ranged : ∀ entry ∈ entries, Ranged entry.2) : Ranged (.map entries)
  | ext {type : Int} (data : Bytes) (least : -0x80 ≤ type) (greatest : type < 0x80) :
      Ranged (.ext type data)

/-- The numbers that a first byte holds or announces are in the ranges of the format. -/
def Lead.Ranged : Lead → Prop
  | .small n => -0x20 ≤ n ∧ n < 0x80
  | .unsigned width => width ≤ 8
  | .signed width => width ≤ 8
  | _ => True

instance : DecidablePred Lead.Ranged
  | .small n => inferInstanceAs (Decidable (-0x20 ≤ n ∧ n < 0x80))
  | .unsigned width => inferInstanceAs (Decidable (width ≤ 8))
  | .signed width => inferInstanceAs (Decidable (width ≤ 8))
  | .nil | .reserved | .bool _ | .float32 | .float64 | .str _ | .bin _ | .ext _ | .array _
  | .map _ => inferInstanceAs (Decidable True)

theorem ranged_ofByte : ∀ b : UInt8, (Lead.ofByte b).Ranged := by
  refine forall_byte ?_
  decide +kernel

variable {value : Value} {bytes : Bytes}

/-- A number that up to `width` bytes spell is below that many bytes can tell apart. -/
theorem toNat_lt_of_length_le {field : Bytes} {width : Nat} (h : field.length ≤ width) :
    field.toNat < Nat.pow 256 width :=
  Nat.lt_of_lt_of_le field.toNat_lt (Nat.pow_le_pow_right (by decide) h)

/-- **Whatever has a form has its numbers in the ranges of the format.** -/
theorem Value.Form.ranged (h : value.Form bytes) : value.Ranged := by
  induction h with
  | nil | reserved => exact .nil
  | bool => exact .bool _
  | float32 => exact .float32 _
  | float64 => exact .float64 _
  | str => exact .str _
  | bin => exact .bin _
  | @small b n lead =>
      have hranged := ranged_ofByte b
      rw [lead] at hranged
      obtain ⟨hleast, hgreatest⟩ := hranged
      exact .int (by omega) (by omega)
  | @unsigned b field lead =>
      have hwidth := ranged_ofByte b
      rw [lead] at hwidth
      have hlt := toNat_lt_of_length_le hwidth
      have hpow : Nat.pow 256 8 = 0x10000000000000000 := by decide
      exact .int (by omega) (by omega)
  | @signed b field lead =>
      have hwidth := ranged_ofByte b
      rw [lead] at hwidth
      have hbounds := @Bytes.toInt_bounds field 7 hwidth
      rw [show ((128 * Nat.pow 256 7 : Nat) : Int) = 0x8000000000000000 by decide] at hbounds
      exact .int hbounds.1 (by omega)
  | @ext b type size field body lead takes =>
      have hbounds := @Bytes.toInt_bounds [type] 0 (Nat.le_refl 1)
      exact .ext body hbounds.1 hbounds.2
  | @array b size field pieces lead takes _ ih =>
      refine .array fun item hitem => ?_
      obtain ⟨piece, hpiece, rfl⟩ := List.mem_map.1 hitem
      exact ih piece hpiece
  | @map b size field pieces lead takes _ _ ih_keys ih_values =>
      refine .map (fun entry hentry => ?_) fun entry hentry => ?_
      · obtain ⟨piece, hpiece, rfl⟩ := List.mem_map.1 hentry
        exact ih_keys piece hpiece
      · obtain ⟨piece, hpiece, rfl⟩ := List.mem_map.1 hentry
        exact ih_values piece hpiece

theorem ranged_of_decodeValue (h : decodeValue bytes = .ok value) : value.Ranged :=
  (decodeValue_eq_ok_iff_form.1 h).1.ranged

/-! ### Arrays -/

/-- The number of items of an array is given in four bytes at most. -/
def Lead.Countable : Lead → Prop
  | .array (.inline n) => n < 0x100000000
  | .array (.field width) => width ≤ 4
  | _ => True

instance : DecidablePred Lead.Countable
  | .array (.inline n) => inferInstanceAs (Decidable (n < 0x100000000))
  | .array (.field width) => inferInstanceAs (Decidable (width ≤ 4))
  | .nil | .reserved | .bool _ | .small _ | .unsigned _ | .signed _ | .float32 | .float64 | .str _
  | .bin _ | .ext _ | .map _ => inferInstanceAs (Decidable True)

theorem countable_ofByte : ∀ b : UInt8, (Lead.ofByte b).Countable := by
  refine forall_byte ?_
  decide +kernel

/-- An array that has a form has fewer than `2 ^ 32` items. -/
theorem Value.Form.length_lt {items : List Value} (h : (Value.array items).Form bytes) :
    items.length < 0x100000000 := by
  cases h with
  | @array b size field pieces lead takes pieces_form =>
      have hcount := countable_ofByte b
      rw [lead] at hcount
      rw [List.length_map]
      cases size with
      | inline n => exact takes.2 ▸ hcount
      | field width =>
          have hlt : field.toNat < Nat.pow 256 4 := toNat_lt_of_length_le (takes.1 ▸ hcount)
          exact takes.2 ▸ hlt

end MsgPack

/-! ### Amounts -/

namespace Field

open MsgPack (Value)

/-- **An amount that is read is an amount**, in whichever form it is written. -/
theorem inRange_of_readAmount {name : String} {value : Value} {n : Int} (ranged : value.Ranged)
    (h : readAmount name value = .ok n) : Amount.InRange n := by
  cases ranged with
  | int hleast hgreatest =>
      cases h
      have hlower : Amount.least ≤ -0x8000000000000000 := by decide
      have hupper : (0x10000000000000000 : Int) ≤ Amount.greatest := by decide
      exact ⟨by omega, by omega⟩
  | ext =>
      rw [readAmount] at h
      split at h
      · exact Amount.inRange_of_ofBytes h
      · cases h
  | nil | bool | float32 | float64 | str | bin | array | map => cases h

theorem ranged_of_readArray {name : String} {value : Value} {items : List Value}
    (ranged : value.Ranged) (h : readArray name value = .ok items) :
    ∀ item ∈ items, item.Ranged := by
  cases ranged with
  | array items_ranged =>
      cases h
      exact items_ranged
  | nil | bool | int | float32 | float64 | str | bin | map | ext => cases h

end Field

/-! ### Delegation parts -/

namespace DelegationPart

open MsgPack (Value)

/-- The delegation parts that are made: the empty one, those read from records, and those that
accepted changes of them lead to. -/
inductive Made : DelegationPart → Prop
  | empty : Made .empty
  | ofBytes {bytes : Bytes} {part : DelegationPart}
      (made : DelegationPart.ofBytes bytes = .ok part) : Made part
  | moveDelegated {part moved : DelegationPart} {delta : Int} (made : Made part)
      (accepted : part.moveDelegated delta = .ok moved) : Made moved
  | setDelegations {part replaced : DelegationPart} {delegations : List Delegation}
      (made : Made part) (amounts : ∀ d ∈ delegations, Amount.InRange d.amount)
      (accepted : part.setDelegations delegations = .ok replaced) : Made replaced

theorem amount_of_readEntry {entry : Value} {d : Delegation} (ranged : entry.Ranged)
    (h : readEntry entry = .ok d) : 0 ≤ d.amount ∧ Amount.InRange d.amount := by
  unfold readEntry at h
  obtain ⟨items, hitems, h⟩ := bind_eq_ok.1 h
  have hranged := Field.ranged_of_readArray ranged hitems
  split at h
  · simp only [bind_eq_ok, throw_bind, refused_or_eq_ok] at h
    obtain ⟨target, -, amount, hamount, hsign, hd⟩ := h
    cases hd
    exact ⟨Int.not_lt.1 hsign, Field.inRange_of_readAmount (hranged _ (by simp)) hamount⟩
  · exact absurd h (throw_ne_ok _ _)

theorem inRange_of_ofFields {delegated entries : Value} {part : DelegationPart}
    (hdelegated : delegated.Ranged) (hentries : entries.Ranged)
    (h : ofFields delegated entries = .ok part) : part.InRange := by
  unfold ofFields at h
  simp only [bind_eq_ok, throw_bind, refused_or_eq_ok] at h
  obtain ⟨amount, hamount, hsign, items, hitems, delegations, hread, hpart⟩ := h
  cases hpart
  have hranged := Field.ranged_of_readArray hentries hitems
  have hamounts := forall_of_mapM hread fun entry hentry d =>
    amount_of_readEntry (hranged entry hentry)
  exact ⟨Int.not_lt.1 hsign, (Field.inRange_of_readAmount hdelegated hamount).2,
    fun d hd => (hamounts d hd).1, fun d hd => (hamounts d hd).2.2⟩

theorem inRange_of_ofBytes {bytes : Bytes} {part : DelegationPart} (h : ofBytes bytes = .ok part) :
    part.InRange := by
  obtain ⟨value, hvalue, h⟩ := bind_eq_ok.1 h
  have ranged := MsgPack.ranged_of_decodeValue (mapError_eq_ok.1 hvalue)
  unfold ofValue at h
  obtain ⟨items, hitems, h⟩ := bind_eq_ok.1 h
  have hranged := Field.ranged_of_readArray ranged (mapError_eq_ok.1 hitems)
  split at h
  · simp only [bind_eq_ok, throw_bind, refused_or_eq_ok, mapError_eq_ok] at h
    obtain ⟨found, -, -, hfields⟩ := h
    exact inRange_of_ofFields (hranged _ (by simp)) (hranged _ (by simp)) hfields
  · exact absurd h (throw_ne_ok _ _)

/-- **Delegation parts that are made hold amounts, none of them negative.** -/
theorem Made.inRange {part : DelegationPart} (h : part.Made) : part.InRange := by
  induction h with
  | empty => exact ⟨Int.le_refl 0, by decide, nofun, nofun⟩
  | ofBytes made => exact inRange_of_ofBytes made
  | moveDelegated _ accepted ih => exact ih.moveDelegated accepted
  | setDelegations _ amounts accepted ih => exact ih.setDelegations amounts accepted

end DelegationPart

end StakeLedger
