/-
**Parts that are recorded and read again.**

What is recorded of a part is read as the part.  Of a stake part this is so up to what its records
do not keep, and up to the shape of what is pending: where several unstakes are known, both shapes
are recorded as one list of slots, and where only one is known, a part with slots has no record.  A
record that came from elsewhere need not be written the way it is written here; once it is read it
is written anew, and that record is read as the same part.

Main definitions:

* `StakeLedger.StakePart.Checked` — what the constructors check, of a stake part in which both
  shapes may stand together.

Main results:

* `StakeLedger.StakePart.Checked.reads_back` — what becomes of a stake part that is recorded;
* `StakeLedger.StakePart.reads_back_of_ofBytes` — what becomes of one that was read;
* `StakeLedger.recorded_reads_back` — **what is recorded is read back, for all parts**.
-/
import StakeLedger.Proofs.Accepted
import StakeLedger.Proofs.Saving

set_option autoImplicit false

namespace StakeLedger

namespace StakePart

/-- What the constructors check, of a stake part in which both shapes may stand together: a sound
part whose heights have a form, whose sum is an amount and whose slots leave room for one more. -/
structure Checked (part : StakePart) : Prop extends Sound part, HeightsFit part where
  in_range : part.stake + part.pending ≤ Amount.greatest
  length_lt : part.slots.length < 0xffffffff

variable {part : StakePart} {revision : Revision} {bytes : Bytes}

/-- The single amount is one slot more at most. -/
theorem length_schedule_le (part : StakePart) : part.schedule.length ≤ part.slots.length + 1 := by
  rw [schedule, adopt]
  split
  · exact Nat.le_succ _
  · exact Nat.le_of_eq (Slot.length_insert _ _)

theorem Checked.recordable (h : part.Checked) : part.Recordable where
  toSound := h.toSound
  toHeightsFit := h.toHeightsFit
  in_range := h.in_range
  length_lt := by
    have hlength := length_schedule_le part
    have hroom := h.length_lt
    omega

/-! ### Records that there are -/

/-- Where several unstakes are known, every part has a record. -/
theorem exists_record_of_multiple (h : revision.hasMultipleUnstake = true) :
    ∃ bytes, part.toBytes revision = .ok bytes := by
  rw [toBytes, toValue, h, if_pos rfl]
  exact ⟨_, rfl⟩

/-- Without slots there is a record at every revision. -/
theorem exists_record_of_no_slots (h : part.slots = []) :
    ∃ bytes, part.toBytes revision = .ok bytes := by
  cases hrecord : part.toBytes revision with
  | ok bytes => exact ⟨bytes, rfl⟩
  | error fault =>
      obtain ⟨-, hslots, -⟩ := toBytes_eq_error_iff.1 hrecord
      exact absurd h hslots

/-- Where one pending unstake is known, exactly the parts with slots have no record. -/
theorem no_record_iff (h : revision.hasMultipleUnstake = false) :
    (∃ error, part.toBytes revision = .error error) ↔ part.slots ≠ [] := by
  constructor
  · rintro ⟨error, herror⟩
    exact (toBytes_eq_error_iff.1 herror).2.1
  · intro hslots
    exact ⟨_, toBytes_eq_error_iff.2 ⟨h, hslots, rfl⟩⟩

/-! ### What is read from them -/

/-- What is read from a record has the stake and the schedule of the part that was recorded. -/
theorem Recordable.schedule_reads_back (h : part.Recordable)
    (written : part.toBytes revision = .ok bytes) :
    ∃ read, ofBytes bytes = .ok read ∧ read.stake = part.stake ∧ read.pending = part.pending ∧
      read.schedule = part.schedule :=
  ⟨part.stored revision, h.ofBytes_toBytes written, stake_stored part revision,
    pending_stored part revision, schedule_stored part revision⟩

/-- **A stake part that the constructors would accept is read back**: where one pending unstake is
known as it is, unless it has slots and no record; where several are known with its schedule for its
slots. -/
theorem Checked.reads_back (h : part.Checked) (revision : Revision) :
    (revision.hasMultipleUnstake = false →
      ((∃ error, part.toBytes revision = .error error) ↔ part.slots ≠ []) ∧
        (part.slots = [] → ∃ bytes, part.toBytes revision = .ok bytes ∧
          ofBytes bytes = .ok { part with totalUnstaked := 0 })) ∧
      (revision.hasMultipleUnstake = true → ∃ bytes read, part.toBytes revision = .ok bytes ∧
        ofBytes bytes = .ok read ∧ read.pending = part.pending ∧
          read = { stake := part.stake, unstake := 0, unstakeHeight := 0, slots := part.schedule,
                   totalUnstaked := 0 }) := by
  constructor
  · intro hsingle
    refine ⟨no_record_iff hsingle, ?_⟩
    intro hslots
    obtain ⟨bytes, hbytes⟩ := @exists_record_of_no_slots part revision hslots
    have hread := h.recordable.ofBytes_toBytes hbytes
    rw [stored_of_single hsingle] at hread
    exact ⟨bytes, hbytes, hread⟩
  · intro hmultiple
    obtain ⟨bytes, hbytes⟩ := @exists_record_of_multiple part revision hmultiple
    have hread := h.recordable.ofBytes_toBytes hbytes
    refine ⟨bytes, part.stored revision, hbytes, hread, pending_stored part revision, ?_⟩
    rw [stored, hmultiple, if_pos rfl]
    rfl

/-- **A stake part that was read is recorded anew**, unless it has slots where one pending unstake
is known, and is read with the same stake and the same schedule. -/
theorem reads_back_of_ofBytes (h : ofBytes bytes = .ok part) (revision : Revision) :
    (revision.hasMultipleUnstake = true ∨ part.slots = [] →
      ∃ again, part.toBytes revision = .ok again) ∧
      ∀ again, part.toBytes revision = .ok again →
        ∃ read, ofBytes again = .ok read ∧ read.stake = part.stake ∧
          read.pending = part.pending ∧ read.schedule = part.schedule := by
  constructor
  · rintro (hmultiple | hslots)
    · exact exists_record_of_multiple hmultiple
    · exact exists_record_of_no_slots hslots
  · intro again hagain
    exact (recordable_of_ofBytes h).schedule_reads_back hagain

end StakePart

/-! ### All parts -/

/-- **What is recorded is read back, for all parts**; and what is read, from whatever form of a
record, is recorded so that it is read back. -/
theorem recorded_reads_back :
    (∀ part : CoinPart, 0 ≤ part.balance → part.balance ≤ Amount.greatest →
      CoinPart.ofBytes part.toBytes = .ok part) ∧
    (∀ part : DelegationPart, part.InRange → part.delegations.length < 0x100000000 →
      DelegationPart.ofBytes part.toBytes = .ok part) ∧
    (∀ part : StakePart, part.Checked → ∀ revision : Revision,
      (revision.hasMultipleUnstake = false →
        ((∃ error, part.toBytes revision = .error error) ↔ part.slots ≠ []) ∧
          (part.slots = [] → ∃ bytes, part.toBytes revision = .ok bytes ∧
            StakePart.ofBytes bytes = .ok { part with totalUnstaked := 0 })) ∧
        (revision.hasMultipleUnstake = true → ∃ bytes read, part.toBytes revision = .ok bytes ∧
          StakePart.ofBytes bytes = .ok read ∧ read.pending = part.pending ∧
            read = { stake := part.stake, unstake := 0, unstakeHeight := 0,
                     slots := part.schedule, totalUnstaked := 0 })) ∧
    (∀ bytes part, CoinPart.ofBytes bytes = .ok part →
      CoinPart.ofBytes part.toBytes = .ok part) ∧
    (∀ bytes part, DelegationPart.ofBytes bytes = .ok part →
      DelegationPart.ofBytes part.toBytes = .ok part) ∧
    ∀ bytes part, StakePart.ofBytes bytes = .ok part → ∀ revision : Revision,
      (revision.hasMultipleUnstake = true ∨ part.slots = [] →
        ∃ again, part.toBytes revision = .ok again) ∧
        ∀ again, part.toBytes revision = .ok again →
          ∃ read, StakePart.ofBytes again = .ok read ∧ read.stake = part.stake ∧
            read.pending = part.pending ∧ read.schedule = part.schedule := by
  refine ⟨?_, ?_, fun _ h => h.reads_back, ?_, ?_, fun _ _ => StakePart.reads_back_of_ofBytes⟩
  · intro part nonneg in_range
    exact CoinPart.Recordable.ofBytes_toBytes ⟨nonneg, in_range⟩
  · intro part in_range few
    exact DelegationPart.Recordable.ofBytes_toBytes ⟨in_range, few⟩
  · intro bytes part h
    exact (CoinPart.recordable_of_ofBytes h).ofBytes_toBytes
  · intro bytes part h
    exact (DelegationPart.recordable_of_ofBytes h).ofBytes_toBytes

/-- A stake beyond the integers of the format, and both shapes of what is pending. -/
def StakePart.twoShapes : StakePart where
  stake := 0x10000000000000000
  unstake := 5
  unstakeHeight := 7
  slots := [⟨3, 4⟩, ⟨1, 9⟩]
  totalUnstaked := 12

theorem StakePart.twoShapes_checked : twoShapes.Checked where
  stake_nonneg := by decide
  unstake_nonneg := by decide
  slots_valid := by decide
  height_le := by decide
  heights_le := by decide
  in_range := by decide
  length_lt := by decide

/-- The single amount is read back as the slot between the other two.  A coin part that came from a
record in a wider form is read back from the one that is written anew. -/
theorem recorded_reads_back_twoShapes :
    (∃ error, StakePart.twoShapes.toBytes .staking = .error error) ∧
      (∃ bytes read, StakePart.twoShapes.toBytes .multipleUnstake = .ok bytes ∧
        StakePart.ofBytes bytes = .ok read ∧ read.slots = [⟨3, 4⟩, ⟨5, 7⟩, ⟨1, 9⟩]) ∧
      CoinPart.ofBytes (CoinPart.toBytes ⟨.treasury, 0xff, 0x10000000000000000⟩) =
        .ok ⟨.treasury, 0xff, 0x10000000000000000⟩ ∧
      CoinPart.ofBytes (CoinPart.toBytes ⟨.general, 0, 100⟩) = .ok ⟨.general, 0, 100⟩ ∧
      DelegationPart.ofBytes (DelegationPart.toBytes ⟨1, []⟩) = .ok ⟨1, []⟩ := by
  obtain ⟨hcoin, hdelegation, hstake, hagain, -, -⟩ := recorded_reads_back
  obtain ⟨hsingle, -⟩ := hstake _ StakePart.twoShapes_checked .staking
  obtain ⟨-, hmultiple⟩ := hstake _ StakePart.twoShapes_checked .multipleUnstake
  obtain ⟨bytes, read, hbytes, hread, -, rfl⟩ := hmultiple (by decide)
  have hwide : CoinPart.ofBytes [0x94, 0xcc, 0x00, 0x00, 0x00, 0xd5, 0x01, 0x00, 0x64] =
      .ok ⟨.general, 0, 100⟩ := rfl
  refine ⟨(hsingle (by decide)).1.2 (by decide), ⟨bytes, _, hbytes, hread, by decide⟩, ?_, ?_, ?_⟩
  · exact hcoin _ (by decide) (by decide)
  · exact hagain _ _ hwide
  · exact hdelegation _ ⟨by decide, by decide, by decide, by decide⟩ (by decide)

end StakeLedger
