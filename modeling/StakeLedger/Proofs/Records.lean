/-
**What is stored of a part reads back.**

A part is stored as a record whose fields are written and read one by one.  A coin part and a
delegation part read back as they were.  Of a stake part the record keeps what later sessions need:
the count of all that was ever unstaked is not stored, and where several unstakes are known the
single pending amount is stored as the slot that it would be adopted as.

Main definitions:

* `StakeLedger.CoinPart.Recordable`, `StakeLedger.StakePart.Recordable`,
  `StakeLedger.DelegationPart.Recordable` — parts that a record can hold;
* `StakeLedger.StakePart.stored` — **what a record keeps of a stake part**.

Main results:

* `StakeLedger.CoinPart.Recordable.ofBytes_toBytes`,
  `StakeLedger.StakePart.Recordable.ofBytes_toBytes`,
  `StakeLedger.DelegationPart.Recordable.ofBytes_toBytes` — what is read from a record;
* `StakeLedger.StakePart.toBytes_eq_error_iff` — when a stake part has no record.
-/
import StakeLedger.Proofs.Origin
import StakeLedger.Proofs.RoundTrip

set_option autoImplicit false

namespace StakeLedger

open Results
open MsgPack (Value depthBudget decodeValue_encode)

/-! ### Fields -/

namespace Field

variable {budget : Nat}

/-- A natural number up to the greatest height has a form. -/
theorem fits_ofNat {n : Nat} (h : n ≤ maxHeight) : (Value.ofNat n).Fits (budget + 1) := by
  have hmax : maxHeight = 0xffffffffffffffff := rfl
  exact .int (by omega) (by omega)

theorem fits_amount {n : Int} (h : Amount.InRange n) : (amount n).Fits (budget + 3) := by
  rw [amount]
  split
  · next hint => exact .int hint.1 hint.2
  · have hlength := Amount.length_toBytes_of_inRange h
    exact .ext (by decide) (by decide) (by omega)

theorem fits_address (a : Address) : (address a).Fits (budget + 2) :=
  .bin (by rw [Address.length_toBytes]; decide)

/-- An amount reads back in either form. -/
theorem readAmount_amount {n : Int} (h : Amount.InRange n) (name : String) :
    readAmount name (amount n) = .ok n := by
  rw [amount]
  split
  · rfl
  · rw [readAmount, if_pos rfl, Amount.ofBytes_toBytes h]

theorem readByte_toNat (name : String) (b : UInt8) :
    readByte name (Value.ofNat b.toNat) = .ok b := by
  rw [readByte, readNat_ofNat, ok_bind, if_pos b.toNat_lt, UInt8.ofNat_toNat]
  rfl

end Field

theorem readVersion_ofNat (version : Nat) : readVersion (Value.ofNat version) = .ok version := by
  rw [readVersion, Field.readNat_ofNat, mapError_ok]

/-! ### Coin parts -/

namespace CoinPart

/-- A coin part that a record can hold. -/
structure Recordable (part : CoinPart) : Prop where
  nonneg : 0 ≤ part.balance
  in_range : part.balance ≤ Amount.greatest

variable {part : CoinPart}

theorem Recordable.inRange (h : part.Recordable) : Amount.InRange part.balance :=
  ⟨Int.le_trans (by decide) h.nonneg, h.in_range⟩

theorem Recordable.fits (h : part.Recordable) : part.toValue.Fits depthBudget := by
  have hcode : part.role.code.toNat ≤ maxHeight :=
    Nat.le_of_lt (Nat.lt_trans part.role.code.toNat_lt (by decide))
  have hflags : part.flags.toNat ≤ maxHeight :=
    Nat.le_of_lt (Nat.lt_trans part.flags.toNat_lt (by decide))
  refine .array (show 4 < 0x100000000 by decide) ?_
  simp only [List.forall_mem_cons]
  exact ⟨Field.fits_ofNat (by decide), Field.fits_ofNat hcode, Field.fits_ofNat hflags,
    Field.fits_amount h.inRange, nofun⟩

theorem Recordable.ofFields_eq (h : part.Recordable) :
    ofFields (.ofNat part.role.code.toNat) (.ofNat part.flags.toNat)
      (Field.amount part.balance) = .ok part := by
  simp only [ofFields, Field.readByte_toNat, ok_bind, Role.ofCode?_code,
    Field.readAmount_amount h.inRange, if_neg (Int.not_lt.2 h.nonneg), pure_eq_ok]

/-- **A coin part reads back from its record.** -/
theorem Recordable.ofBytes_toBytes (h : part.Recordable) : ofBytes part.toBytes = .ok part := by
  have hvalue : ofValue part.toValue = .ok part := by
    simp only [ofValue, toValue, Field.readArray, mapError_ok, ok_bind, readVersion_ofNat, ne_eq,
      not_true_eq_false, if_false, h.ofFields_eq]
  rw [ofBytes, toBytes, decodeValue_encode h.fits, mapError_ok, ok_bind, hvalue]

end CoinPart

/-! ### Stake parts -/

theorem Amount.foldr_add_nonneg {amounts : List Int} (h : ∀ amount ∈ amounts, 0 ≤ amount) :
    0 ≤ amounts.foldr (· + ·) 0 := by
  induction amounts with
  | nil => exact Int.le_refl 0
  | cons first rest ih =>
      obtain ⟨hfirst, hrest⟩ := List.forall_mem_cons.1 h
      exact Int.add_nonneg hfirst (ih hrest)

/-- Amounts that are not negative have a sum if all of them together are in the range. -/
theorem Amount.isSome_sum? {start : Int} {amounts : List Int} (nonneg : 0 ≤ start)
    (amounts_nonneg : ∀ amount ∈ amounts, 0 ≤ amount)
    (in_range : start + amounts.foldr (· + ·) 0 ≤ Amount.greatest) :
    (Amount.sum? start amounts).isSome = true := by
  induction amounts generalizing start with
  | nil => rfl
  | cons first rest ih =>
      obtain ⟨hfirst, hrest⟩ := List.forall_mem_cons.1 amounts_nonneg
      rw [List.foldr_cons] at in_range
      have hsum := Amount.foldr_add_nonneg hrest
      have hadd : Amount.add? start first = some (start + first) :=
        Amount.add?_eq_some_iff.2 ⟨rfl, Int.le_trans (by decide) (Int.add_nonneg nonneg hfirst),
          by omega⟩
      rw [Amount.sum?, List.foldlM_cons, hadd]
      exact ih (Int.add_nonneg nonneg hfirst) hrest (by omega)

namespace Slot

variable {slots : List Slot}

/-- No slot holds more than all of them. -/
theorem Valid.amount_le_total (h : Valid slots) {slot : Slot} (hmem : slot ∈ slots) :
    slot.amount ≤ total slots := by
  induction slots with
  | nil => exact absurd hmem List.not_mem_nil
  | cons first rest ih =>
      obtain ⟨hfirst, -, hrest⟩ := valid_cons.1 h
      have hnonneg := hrest.total_nonneg
      rw [total_cons]
      obtain rfl | hmem := List.mem_cons.1 hmem
      · omega
      · have := ih hrest hmem
        omega

end Slot

namespace StakePart

/-- Heights that have a form. -/
structure HeightsFit (part : StakePart) : Prop where
  height_le : part.unstakeHeight ≤ maxHeight
  heights_le : ∀ slot ∈ part.slots, slot.unlockHeight ≤ maxHeight

/-- A stake part that a record can hold: a sound one whose sum is an amount and whose heights have a
form, as has the length of its schedule, which is that of its slots and at most one more. -/
structure Recordable (part : StakePart) : Prop extends Sound part, HeightsFit part where
  in_range : part.stake + part.pending ≤ Amount.greatest
  length_lt : part.schedule.length < 0x100000000

/-- **What a record keeps of a stake part**: all but the count of what was ever unstaked, and where
several unstakes are known the single amount as a slot. -/
def stored (part : StakePart) (revision : Revision) : StakePart :=
  if revision.hasMultipleUnstake then { empty with stake := part.stake, slots := part.schedule }
  else { part with totalUnstaked := 0 }

variable {part : StakePart} {revision : Revision}

/-- Only a part with slots has no record, and that only where one pending unstake is known. -/
theorem toBytes_eq_error_iff {error : LedgerError} :
    part.toBytes revision = .error error ↔
      revision.hasMultipleUnstake = false ∧ part.slots ≠ [] ∧
        error = .invalidParameter (.slotsAtRevision revision part.slots.length) := by
  rw [toBytes, toValue]
  cases hmultiple : revision.hasMultipleUnstake with
  | true => exact ⟨nofun, nofun⟩
  | false =>
      by_cases hslots : part.slots = []
      · rw [if_neg (by decide), if_neg (fun h => h hslots)]
        exact ⟨nofun, fun h => absurd hslots h.2.1⟩
      · rw [if_neg (by decide), if_pos hslots]
        constructor
        · intro h
          cases h
          exact ⟨rfl, hslots, rfl⟩
        · rintro ⟨-, -, rfl⟩
          rfl

theorem amountsFit_of_le {stake unstake : Int} {slots : List Slot} (hstake : 0 ≤ stake)
    (hunstake : 0 ≤ unstake) (hslots : Slot.Valid slots)
    (in_range : stake + unstake + Slot.total slots ≤ Amount.greatest) :
    amountsFit stake unstake slots = true := by
  have htotal : (slots.map Slot.amount).foldr (· + ·) 0 = Slot.total slots := List.foldr_map
  refine Amount.isSome_sum? hstake ?_ ?_
  · rw [List.forall_mem_cons]
    refine ⟨hunstake, ?_⟩
    intro amount hmem
    obtain ⟨slot, hslot, rfl⟩ := List.mem_map.1 hmem
    exact Int.le_of_lt (hslots.1 slot hslot)
  · rw [List.foldr_cons, htotal]
    omega

/-! #### The schedule as slots of a record -/

theorem Sound.schedule_valid (h : part.Sound) : Slot.Valid part.schedule := h.adopt.slots_valid

/-- The schedule is the slots, and the single amount among them. -/
theorem mem_schedule {slot : Slot} (h : slot ∈ part.schedule) :
    slot = ⟨part.unstake, part.unstakeHeight⟩ ∨ slot ∈ part.slots := by
  rw [schedule, adopt] at h
  split at h
  · exact Or.inr h
  · exact Slot.mem_insert.1 h

theorem HeightsFit.schedule (h : part.HeightsFit) :
    ∀ slot ∈ part.schedule, slot.unlockHeight ≤ maxHeight := by
  intro slot hmem
  rcases mem_schedule hmem with rfl | hmem
  · exact h.height_le
  · exact h.heights_le slot hmem

variable {slot : Slot}

theorem Recordable.amount_inRange (h : part.Recordable) (hmem : slot ∈ part.schedule) :
    Amount.InRange slot.amount := by
  have hpos := h.schedule_valid.1 slot hmem
  have hle := h.schedule_valid.amount_le_total hmem
  have hstake := h.stake_nonneg
  have hrange := h.in_range
  rw [total_schedule] at hle
  exact ⟨Int.le_trans (by decide) (Int.le_of_lt hpos), by omega⟩

theorem Recordable.stake_inRange (h : part.Recordable) : Amount.InRange part.stake := by
  have hpending := h.toSound.pending_nonneg
  have hrange := h.in_range
  exact ⟨Int.le_trans (by decide) h.stake_nonneg, by omega⟩

theorem Recordable.unstake_inRange (h : part.Recordable) : Amount.InRange part.unstake := by
  have hstake := h.stake_nonneg
  have htotal := h.slots_valid.total_nonneg
  have hrange := h.in_range
  rw [pending] at hrange
  exact ⟨Int.le_trans (by decide) h.unstake_nonneg, by omega⟩

/-- Every slot of the schedule reads back from its entry. -/
theorem Recordable.readSlot_slotValue (h : part.Recordable) (hmem : slot ∈ part.schedule) :
    readSlot (slotValue slot) = .ok slot := by
  simp only [readSlot, slotValue, Field.readArray, ok_bind,
    Field.readAmount_amount (h.amount_inRange hmem), Field.readNat_ofNat, pure_eq_ok]

theorem Recordable.fits_slotValue (h : part.Recordable) (hmem : slot ∈ part.schedule)
    {budget : Nat} : (slotValue slot).Fits (budget + 5) := by
  refine .array (show 2 < 0x100000000 by decide) ?_
  simp only [List.forall_mem_cons]
  exact ⟨Field.fits_amount (h.amount_inRange hmem), Field.fits_ofNat (h.schedule slot hmem), nofun⟩

/-! #### Both records -/

theorem Recordable.ofBytes_slots (h : part.Recordable) :
    ofBytes (Value.array [.ofNat slotVersion, Field.amount part.stake,
      .array (part.schedule.map slotValue)]).encode =
        .ok { empty with stake := part.stake, slots := part.schedule } := by
  have hfits : (Value.array [.ofNat slotVersion, Field.amount part.stake,
      .array (part.schedule.map slotValue)]).Fits depthBudget := by
    refine .array (show 3 < 0x100000000 by decide) ?_
    simp only [List.forall_mem_cons]
    refine ⟨Field.fits_ofNat (by decide), Field.fits_amount h.stake_inRange, ?_, nofun⟩
    refine .array (by rw [List.length_map]; exact h.length_lt) ?_
    intro item hitem
    obtain ⟨slot, hslot, rfl⟩ := List.mem_map.1 hitem
    exact h.fits_slotValue hslot
  have hread : (part.schedule.map slotValue).mapM readSlot = .ok part.schedule :=
    mapM_map fun slot hslot => h.readSlot_slotValue hslot
  have hamounts : amountsFit part.stake 0 part.schedule = true := by
    refine amountsFit_of_le h.stake_nonneg (Int.le_refl 0) h.schedule_valid ?_
    rw [total_schedule, Int.add_zero]
    exact h.in_range
  have hfields : ofSlotFields (Field.amount part.stake) (.array (part.schedule.map slotValue)) =
      .ok { empty with stake := part.stake, slots := part.schedule } := by
    simp only [ofSlotFields, Field.readAmount_amount h.stake_inRange, Field.readArray, ok_bind,
      hread, if_neg (Int.not_lt.2 h.stake_nonneg), h.schedule_valid, hamounts, not_true_eq_false,
      Bool.not_true, Bool.false_eq_true, or_self, if_false, pure_eq_ok]
  rw [ofBytes, decodeValue_encode hfits, mapError_ok, ok_bind]
  simp only [ofValue, Field.readArray, mapError_ok, ok_bind, readVersion_ofNat,
    show slotVersion ≠ singleVersion by decide, if_false, if_true, hfields]

theorem Recordable.ofBytes_single (h : part.Recordable) (no_slots : part.slots = []) :
    ofBytes (Value.array [.ofNat singleVersion, Field.amount part.stake,
      Field.amount part.unstake, .ofNat part.unstakeHeight]).encode =
        .ok { part with totalUnstaked := 0 } := by
  have hfits : (Value.array [.ofNat singleVersion, Field.amount part.stake,
      Field.amount part.unstake, .ofNat part.unstakeHeight]).Fits depthBudget := by
    refine .array (show 4 < 0x100000000 by decide) ?_
    simp only [List.forall_mem_cons]
    exact ⟨Field.fits_ofNat (by decide), Field.fits_amount h.stake_inRange,
      Field.fits_amount h.unstake_inRange, Field.fits_ofNat h.height_le, nofun⟩
  have hamounts : amountsFit part.stake part.unstake [] = true := by
    have hrange := h.in_range
    rw [pending, no_slots, Slot.total_nil] at hrange
    refine amountsFit_of_le h.stake_nonneg h.unstake_nonneg Slot.Valid.nil ?_
    rw [Slot.total_nil]
    omega
  have hsigns : ¬ (part.stake < 0 ∨ part.unstake < 0) := by
    have hstake := h.stake_nonneg
    have hunstake := h.unstake_nonneg
    omega
  have hfields : ofSingleFields (Field.amount part.stake) (Field.amount part.unstake)
      (.ofNat part.unstakeHeight) = .ok { part with totalUnstaked := 0 } := by
    simp only [ofSingleFields, Field.readAmount_amount h.stake_inRange,
      Field.readAmount_amount h.unstake_inRange, Field.readNat_ofNat, ok_bind, if_neg hsigns,
      hamounts, Bool.not_true, Bool.false_eq_true, if_false, pure_eq_ok, empty, no_slots]
  rw [ofBytes, decodeValue_encode hfits, mapError_ok, ok_bind]
  simp only [ofValue, Field.readArray, mapError_ok, ok_bind, readVersion_ofNat, if_true, hfields]

/-- **What is read from the record of a stake part is what the record keeps of it.** -/
theorem Recordable.ofBytes_toBytes (h : part.Recordable) {bytes : Bytes}
    (written : part.toBytes revision = .ok bytes) : ofBytes bytes = .ok (part.stored revision) := by
  rw [toBytes, toValue] at written
  rw [stored]
  cases hmultiple : revision.hasMultipleUnstake with
  | true =>
      rw [hmultiple, if_pos rfl] at written
      cases written
      exact h.ofBytes_slots
  | false =>
      rw [hmultiple, if_neg (by decide)] at written
      split at written
      · cases written
      · next hslots =>
          cases written
          exact h.ofBytes_single (Decidable.not_not.1 hslots)

end StakePart

/-! ### Delegation parts -/

namespace DelegationPart

/-- A delegation part whose amounts are amounts and not negative. -/
structure InRange (part : DelegationPart) : Prop where
  delegated_nonneg : 0 ≤ part.delegated
  delegated_le : part.delegated ≤ Amount.greatest
  amount_nonneg : ∀ d ∈ part.delegations, 0 ≤ d.amount
  amount_le : ∀ d ∈ part.delegations, d.amount ≤ Amount.greatest

/-- A delegation part that a record can hold. -/
structure Recordable (part : DelegationPart) : Prop extends InRange part where
  length_lt : part.delegations.length < 0x100000000

variable {part : DelegationPart} {d : Delegation}

theorem Recordable.amount_inRange (h : part.Recordable) (hmem : d ∈ part.delegations) :
    Amount.InRange d.amount :=
  ⟨Int.le_trans (by decide) (h.amount_nonneg d hmem), h.amount_le d hmem⟩

theorem Recordable.delegated_inRange (h : part.Recordable) : Amount.InRange part.delegated :=
  ⟨Int.le_trans (by decide) h.delegated_nonneg, h.delegated_le⟩

theorem Recordable.fits (h : part.Recordable) : part.toValue.Fits depthBudget := by
  refine .array (show 3 < 0x100000000 by decide) ?_
  simp only [List.forall_mem_cons]
  refine ⟨Field.fits_ofNat (by decide), Field.fits_amount h.delegated_inRange, ?_, nofun⟩
  refine .array (by rw [List.length_map]; exact h.length_lt) ?_
  intro item hitem
  obtain ⟨d, hd, rfl⟩ := List.mem_map.1 hitem
  refine .array (show 2 < 0x100000000 by decide) ?_
  simp only [List.forall_mem_cons]
  exact ⟨Field.fits_address _, Field.fits_amount (h.amount_inRange hd), nofun⟩

/-- Every delegation reads back from its entry. -/
theorem Recordable.readEntry_entryValue (h : part.Recordable) (hmem : d ∈ part.delegations) :
    readEntry (entryValue d) = .ok d := by
  simp only [readEntry, entryValue, Field.readArray, ok_bind, Field.readAddress_address,
    Field.readAmount_amount (h.amount_inRange hmem), if_neg (Int.not_lt.2 (h.amount_nonneg d hmem)),
    pure_eq_ok]

/-- **A delegation part reads back from its record.** -/
theorem Recordable.ofBytes_toBytes (h : part.Recordable) : ofBytes part.toBytes = .ok part := by
  have hread : (part.delegations.map entryValue).mapM readEntry = .ok part.delegations :=
    mapM_map fun d hd => h.readEntry_entryValue hd
  have hfields : ofFields (Field.amount part.delegated) (.array (part.delegations.map entryValue)) =
      .ok part := by
    simp only [ofFields, Field.readAmount_amount h.delegated_inRange, ok_bind, Field.readArray,
      if_neg (Int.not_lt.2 h.delegated_nonneg), hread, pure_eq_ok]
  have hvalue : ofValue part.toValue = .ok part := by
    simp only [ofValue, toValue, Field.readArray, mapError_ok, ok_bind, readVersion_ofNat, ne_eq,
      not_true_eq_false, if_false, hfields]
  rw [ofBytes, toBytes, decodeValue_encode h.fits, mapError_ok, ok_bind, hvalue]

end DelegationPart

end StakeLedger
