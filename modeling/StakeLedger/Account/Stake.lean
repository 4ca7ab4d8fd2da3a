/-
**The stake part of an account.**

The stake part holds the stake and what is pending of earlier stakes.  Pending unstakes have two
shapes: one amount with one height, or a list of slots.  The single shape belongs to the revisions
that know one pending unstake; where several are known it only holds what an older record left, and
is adopted as a slot before anything else happens.

The record is `[0, stake, unstake, height]` for the single shape and
`[1, stake, [[amount, height], …]]` for slots.

Main definitions:

* `StakeLedger.StakePart` — the part;
* `StakeLedger.StakePart.pending`, `StakeLedger.StakePart.schedule` — what is pending, as a total
  and slot by slot;
* `StakeLedger.StakePart.adopt` — the single shape moved into the slots;
* `StakeLedger.StakePart.toBytes`, `StakeLedger.StakePart.ofBytes` — the record.

Main results:

* `StakeLedger.StakePart.total_schedule` — the schedule sums to what is pending.
-/
import StakeLedger.Account.Coin
import StakeLedger.Account.Slot

set_option autoImplicit false

namespace StakeLedger

open MsgPack (Value)

/-- The stake of an account and what is pending of it. -/
structure StakePart where
  stake : Int
  /-- The pending amount in the single shape. -/
  unstake : Int
  /-- The height at which that amount unlocks. -/
  unstakeHeight : Nat
  /-- The pending amounts in the shape of slots. -/
  slots : List Slot
  /-- All that was ever unstaked since the part was made; no record holds it. -/
  totalUnstaked : Int
  deriving DecidableEq, Repr

namespace StakePart

/-- A part with nothing staked and nothing pending. -/
def empty : StakePart :=
  { stake := 0, unstake := 0, unstakeHeight := 0, slots := [], totalUnstaked := 0 }

instance : Inhabited StakePart := ⟨empty⟩

/-- Whether the amounts of a part, summed in order, stay in the range of amounts. -/
def amountsFit (stake unstake : Int) (slots : List Slot) : Bool :=
  (Amount.sum? stake (unstake :: slots.map Slot.amount)).isSome

/-- A part in the single shape. -/
def ofSingle (stake unstake : Int) (unstakeHeight : Nat) : Except LedgerError StakePart :=
  if stake < 0 ∨ unstake < 0 then
    .error (.invalidParameter (.negativeStakePart stake unstake))
  else if !amountsFit stake unstake [] then
    .error (.invalidParameter (.stakePartOverflow stake unstake))
  else
    .ok { empty with stake, unstake, unstakeHeight := if unstake = 0 then 0 else unstakeHeight }

/-- A part with a stake and nothing pending. -/
def ofStake (stake : Int) : Except LedgerError StakePart := ofSingle stake 0 0

/-- A part in the shape of slots. -/
def ofSlots (stake : Int) (slots : List Slot) : Except LedgerError StakePart :=
  if stake < 0 then .error (.invalidParameter (.negativeStake stake))
  else if ¬ Slot.Valid slots then .error (.invalidParameter .invalidSlots)
  else if !amountsFit stake 0 slots then .error (.invalidParameter .slotsOverflow)
  else .ok { empty with stake, slots }

/-! ### What is pending -/

/-- All that is pending, in either shape. -/
def pending (part : StakePart) : Int := part.unstake + Slot.total part.slots

/-- The part with the single shape moved into the slots. -/
def adopt (part : StakePart) : StakePart :=
  if part.unstake = 0 then part
  else
    { part with
      slots := Slot.insert ⟨part.unstake, part.unstakeHeight⟩ part.slots
      unstake := 0
      unstakeHeight := 0 }

/-- All that is pending, slot by slot in the order of unlocking. -/
def schedule (part : StakePart) : List Slot := part.adopt.slots

/-- The schedule sums to what is pending. -/
theorem total_schedule (part : StakePart) : Slot.total part.schedule = part.pending := by
  unfold schedule adopt pending
  split
  · next h => simp [h]
  · simp

@[simp] theorem pending_adopt (part : StakePart) : part.adopt.pending = part.pending := by
  unfold adopt pending
  split
  · rfl
  · simp

/-! ### The record -/

/-- The version of a record in the single shape. -/
def singleVersion : Nat := 0

/-- The version of a record with slots. -/
def slotVersion : Nat := 1

/-- The entry of a slot in a record. -/
def slotValue (slot : Slot) : Value :=
  .array [Field.amount slot.amount, .ofNat slot.unlockHeight]

/-- The record of the part in the shape of `revision`. -/
def toValue (part : StakePart) (revision : Revision) : Except LedgerError Value :=
  if revision.hasMultipleUnstake then
    .ok (.array [.ofNat slotVersion, Field.amount part.stake,
      .array (part.schedule.map slotValue)])
  else if part.slots ≠ [] then
    .error (.invalidParameter (.slotsAtRevision revision part.slots.length))
  else
    .ok (.array [.ofNat singleVersion, Field.amount part.stake, Field.amount part.unstake,
      .ofNat part.unstakeHeight])

/-- The slot that an entry describes. -/
def readSlot (entry : Value) : Except CodecError Slot := do
  match ← Field.readArray "fields" entry with
  | [amount, height] =>
      let amount ← Field.readAmount "unstake_amount" amount
      let unlockHeight ← Field.readNat "unlock_height" height
      return { amount, unlockHeight }
  | fields => throw (.arity 2 fields.length)

/-- The part that a record in the single shape describes after its version. -/
def ofSingleFields (stake unstake height : Value) : Except CodecError StakePart := do
  let stake ← Field.readAmount "stake" stake
  let unstake ← Field.readAmount "unstake" unstake
  let unstakeHeight ← Field.readNat "unstake_block_height" height
  if stake < 0 ∨ unstake < 0 then throw (.outOfRange "stake")
  if !amountsFit stake unstake [] then throw (.outOfRange "unstake")
  return { empty with stake, unstake, unstakeHeight }

/-- The part that a record with slots describes after its version. -/
def ofSlotFields (stake entries : Value) : Except CodecError StakePart := do
  let stake ← Field.readAmount "stake" stake
  let slots ← (← Field.readArray "unstake_slots" entries).mapM readSlot
  if stake < 0 then throw (.outOfRange "stake")
  if ¬ Slot.Valid slots ∨ !amountsFit stake 0 slots then throw (.outOfRange "unstake_slots")
  return { empty with stake, slots }

/-- The part that a record describes. -/
def ofValue (value : Value) : Except LedgerError StakePart := do
  match ← (Field.readArray "stake_part" value).mapError .codec with
  | [] => throw (.codec (.arity 1 0))
  | first :: fields =>
      let found ← readVersion first
      if found = singleVersion then
        match fields with
        | [stake, unstake, height] => (ofSingleFields stake unstake height).mapError .codec
        | _ => throw (.codec (.arity 4 (fields.length + 1)))
      else if found = slotVersion then
        match fields with
        | [stake, entries] => (ofSlotFields stake entries).mapError .codec
        | _ => throw (.codec (.arity 3 (fields.length + 1)))
      else throw (.unsupportedVersion .stake found)

/-- The stored form of the part at `revision`. -/
def toBytes (part : StakePart) (revision : Revision) : Except LedgerError Bytes :=
  (part.toValue revision).map Value.encode

/-- The part with the given stored form. -/
def ofBytes (bytes : Bytes) : Except LedgerError StakePart := do
  ofValue (← (decodeValue bytes).mapError .codec)

end StakePart

end StakeLedger
