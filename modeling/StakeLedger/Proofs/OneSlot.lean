/-
**One pending unstake is one slot.**

A stake part in the single shape and one that keeps at most one slot can hold the same: the amount
that the one accumulates is the amount in the other's slot, and its height is the height of that
slot.  Both policies keep it so, as long as an unstake unlocks at a height that is not zero, and no
earlier than what is pending then.  Without that condition they do not: the single shape takes the
height of the last unstake where the slot keeps the greatest one, and in the single shape a height
of zero never comes.

Main definitions:

* `StakeLedger.StakePart.record` — what is pending in the single shape, as slots;
* `StakeLedger.StakePart.Mirrors` — **a part in the single shape and one with its slot**;
* `StakeLedger.StakePart.AtRest`, `StakeLedger.StakePart.ShowsSame` — where two such parts start
  from, and what is seen of them.

Main results:

* `StakeLedger.StakePart.Mirrors.matured_eq` — the same is unlocked at every height;
* `StakeLedger.StakePart.Mirrors.raise`, `StakeLedger.StakePart.Mirrors.lower`,
  `StakeLedger.StakePart.Mirrors.release` — what the two policies keep.
-/
import StakeLedger.Proofs.Representation

set_option autoImplicit false

namespace StakeLedger

/-! ### Stake parts -/

namespace StakePart

variable {single slotted : StakePart}

/-- What is pending in the single shape, as slots: none, or the one that holds it. -/
def record (part : StakePart) : List Slot :=
  if part.unstake = 0 then [] else [⟨part.unstake, part.unstakeHeight⟩]

/-- A part in the single shape, and one that keeps the same in slots. -/
structure Mirrors (single slotted : StakePart) : Prop where
  stake_eq : slotted.stake = single.stake
  totalUnstaked_eq : slotted.totalUnstaked = single.totalUnstaked
  unstake_nonneg : 0 ≤ single.unstake
  height_ne_zero : single.unstake ≠ 0 → single.unstakeHeight ≠ 0
  no_slots : single.slots = []
  adopted : slotted.unstake = 0
  slots_eq : slotted.slots = single.record

theorem record_of_idle {part : StakePart} (h : part.unstake = 0) : part.record = [] := if_pos h

theorem record_of_pending {part : StakePart} (h : part.unstake ≠ 0) :
    part.record = [⟨part.unstake, part.unstakeHeight⟩] := if_neg h

theorem total_record (part : StakePart) : Slot.total part.record = part.unstake := by
  unfold record
  split
  · next h => exact h.symm
  · exact Int.add_zero _

theorem Mirrors.pending_single (h : single.Mirrors slotted) : single.pending = single.unstake := by
  rw [pending, h.no_slots, Slot.total_nil, Int.add_zero]

theorem Mirrors.pending_eq (h : single.Mirrors slotted) : slotted.pending = single.pending := by
  rw [h.pending_single, pending, h.adopted, h.slots_eq, total_record, Int.zero_add]

theorem Mirrors.adopt_eq (h : single.Mirrors slotted) : slotted.adopt = slotted := if_pos h.adopted

/-- Either nothing is pending, or what is pending has a height and is the one slot. -/
theorem Mirrors.idle_or (h : single.Mirrors slotted) :
    single.unstake = 0 ∧ slotted.slots = [] ∨
      0 < single.unstake ∧ single.unstakeHeight ≠ 0 ∧
        slotted.slots = [⟨single.unstake, single.unstakeHeight⟩] := by
  by_cases hidle : single.unstake = 0
  · exact Or.inl ⟨hidle, h.slots_eq.trans (record_of_idle hidle)⟩
  · have hnonneg := h.unstake_nonneg
    exact Or.inr ⟨by omega, h.height_ne_zero hidle, h.slots_eq.trans (record_of_pending hidle)⟩

/-- What is unlocked for the one is unlocked for the other: no height is zero. -/
theorem Mirrors.matured_eq (h : single.Mirrors slotted) (height : Nat) :
    UnstakePolicy.slots.matured slotted height = UnstakePolicy.single.matured single height := by
  rw [UnstakePolicy.matured_schedule (Int.le_of_eq h.adopted.symm),
    schedule_of_unstake_eq_zero h.adopted, UnstakePolicy.matured_single]
  obtain ⟨hidle, hslots⟩ | ⟨hpos, hheight, hslots⟩ := h.idle_or
  · simp [hidle, hslots]
  · by_cases hdue : single.unstakeHeight ≤ height
    · simp [Slot.matured, hslots, hpos, hheight, hdue]
    · simp [Slot.matured, hslots, hdue]

theorem Mirrors.release (h : single.Mirrors slotted) (height : Nat) :
    (UnstakePolicy.single.release single height).Mirrors
      (UnstakePolicy.slots.release slotted height) := by
  have hslotted : UnstakePolicy.slots.release slotted height =
      { slotted with slots := slotted.slots.filter fun slot => !slot.matured height } := by
    rw [UnstakePolicy.release, h.adopt_eq]
  rw [hslotted, UnstakePolicy.release_single]
  obtain ⟨hidle, hslots⟩ | ⟨hpos, hheight, hslots⟩ := h.idle_or
  · rw [if_neg (by simp [hidle]), hslots]
    exact { h with slots_eq := (record_of_idle hidle).symm }
  · by_cases hdue : single.unstakeHeight ≤ height
    · rw [if_pos ⟨hpos, hheight, hdue⟩]
      exact
        { h with
          unstake_nonneg := Int.le_refl 0
          height_ne_zero := fun hne => absurd rfl hne
          slots_eq := by simp [hslots, Slot.matured, hdue, record] }
    · rw [if_neg fun hunlocked => hdue hunlocked.2.2]
      exact
        { h with
          slots_eq := by
            rw [← h.slots_eq, hslots]
            simp [Slot.matured, hdue] }

theorem Mirrors.reclaimable_eq (h : single.Mirrors slotted) (delta : Int) :
    UnstakePolicy.slots.reclaimable slotted delta =
      UnstakePolicy.single.reclaimable single delta := by
  have hpending : UnstakePolicy.slots.pending slotted = UnstakePolicy.single.pending single :=
    h.pending_eq.trans h.pending_single
  rw [UnstakePolicy.reclaimable, hpending, UnstakePolicy.reclaimable]

/-- An increase uses the slot up where it uses up the pending amount. -/
theorem Mirrors.raise (h : single.Mirrors slotted) {delta : Int} (pos : 0 < delta) :
    (UnstakePolicy.single.raise single delta).Mirrors
      (UnstakePolicy.slots.raise slotted delta) := by
  have htaken : UnstakePolicy.single.reclaimable single delta = min delta single.unstake := rfl
  have hslotted : UnstakePolicy.slots.raise slotted delta =
      { slotted with
        slots := Slot.drain (min delta single.unstake) slotted.slots
        stake := slotted.stake + delta } := by
    rw [UnstakePolicy.raise, h.reclaimable_eq, htaken, UnstakePolicy.reclaim, h.adopt_eq]
  have hsingle : UnstakePolicy.single.raise single delta =
      { single with
        unstake := single.unstake - min delta single.unstake
        unstakeHeight :=
          if single.unstake - min delta single.unstake = 0 then 0 else single.unstakeHeight
        stake := single.stake + delta } := by
    rw [UnstakePolicy.raise, htaken, UnstakePolicy.reclaim, Int.min_assoc, Int.min_self]
  have hstake := h.stake_eq
  have hnonneg := h.unstake_nonneg
  rw [hslotted, hsingle]
  refine
    { h with
      stake_eq := by rw [hstake]
      unstake_nonneg := Int.sub_nonneg.2 (Int.min_le_right _ _)
      height_ne_zero := ?_
      slots_eq := ?_ }
  · intro hleft
    change single.unstake - min delta single.unstake ≠ 0 at hleft
    rw [if_neg hleft]
    exact h.height_ne_zero (by omega)
  · obtain ⟨hidle, hslots⟩ | ⟨hpos, -, hslots⟩ := h.idle_or
    · have hleft : single.unstake - min delta single.unstake = 0 := by omega
      rw [hslots, record_of_idle hleft]
      rfl
    · by_cases hused : single.unstake ≤ delta
      · rw [Int.min_eq_right hused, record_of_idle (Int.sub_self _), hslots, Slot.drain,
          if_neg (Int.not_le.2 hpos), if_pos (Int.le_refl _)]
        rfl
      · have hless : single.unstake - delta ≠ 0 := by omega
        rw [Int.min_eq_left (by omega), record_of_pending hless, hslots, Slot.drain,
          if_neg (Int.not_le.2 pos), if_neg hused, if_neg hless]

/-- A decrease joins the slot, which then unlocks where the pending amount does. -/
theorem Mirrors.lower (h : single.Mirrors slotted) {released : Int} {unlockHeight : Nat}
    (slotMax : Nat) (pos : 0 < released) (height_ne_zero : unlockHeight ≠ 0)
    (later : single.unstake ≠ 0 → single.unstakeHeight ≤ unlockHeight) :
    (UnstakePolicy.single.lower single released unlockHeight slotMax).Mirrors
      (UnstakePolicy.slots.lower slotted released unlockHeight 1) := by
  have hslotted : UnstakePolicy.slots.lower slotted released unlockHeight 1 =
      { slotted with
        slots :=
          if slotted.slots.length < 1 then Slot.insert ⟨released, unlockHeight⟩ slotted.slots
          else Slot.raiseLast released unlockHeight slotted.slots
        stake := slotted.stake - released
        totalUnstaked := slotted.totalUnstaked + released } := by
    rw [UnstakePolicy.lower, UnstakePolicy.push, h.adopt_eq]
  have hsingle : UnstakePolicy.single.lower single released unlockHeight slotMax =
      { single with
        unstake := single.unstake + released
        unstakeHeight := unlockHeight
        stake := single.stake - released
        totalUnstaked := single.totalUnstaked + released } := rfl
  have hnonneg := h.unstake_nonneg
  have hpending : single.unstake + released ≠ 0 := by omega
  rw [hslotted, hsingle]
  refine
    { h with
      stake_eq := by rw [h.stake_eq]
      totalUnstaked_eq := by rw [h.totalUnstaked_eq]
      unstake_nonneg := Int.add_nonneg hnonneg (Int.le_of_lt pos)
      height_ne_zero := fun _ => height_ne_zero
      slots_eq := ?_ }
  rw [record_of_pending hpending]
  change (if slotted.slots.length < 1 then _ else _) =
    ([⟨single.unstake + released, unlockHeight⟩] : List Slot)
  obtain ⟨hidle, hslots⟩ | ⟨hpos, -, hslots⟩ := h.idle_or
  · rw [hslots, List.length_nil, if_pos Nat.zero_lt_one, hidle, Int.zero_add]
    rfl
  · have hheight : max single.unstakeHeight unlockHeight = unlockHeight :=
      Nat.max_eq_right (later (by omega))
    rw [hslots, List.length_singleton, if_neg (Nat.lt_irrefl 1), Slot.raiseLast, hheight]

/-! ### Before the first unstake, and what is seen -/

/-- Two parts with the same stake, the same total of all unstakes so far and nothing pending. -/
structure AtRest (part other : StakePart) : Prop where
  stake_eq : other.stake = part.stake
  totalUnstaked_eq : other.totalUnstaked = part.totalUnstaked
  idle : part.unstake = 0 ∧ part.slots = []
  other_idle : other.unstake = 0 ∧ other.slots = []

/-- Two parts that show the same stake, the same amount pending and the same total of all unstakes;
and the slots of the second are none if the amount of the first is zero, and otherwise the one slot
with that amount and its height. -/
structure ShowsSame (part other : StakePart) : Prop where
  stake_eq : other.stake = part.stake
  pending_eq : other.pending = part.pending
  totalUnstaked_eq : other.totalUnstaked = part.totalUnstaked
  slots_eq : other.slots =
    if part.unstake = 0 then [] else [⟨part.unstake, part.unstakeHeight⟩]

theorem AtRest.mirrors {part other : StakePart} (h : part.AtRest other) : part.Mirrors other where
  stake_eq := h.stake_eq
  totalUnstaked_eq := h.totalUnstaked_eq
  unstake_nonneg := Int.le_of_eq h.idle.1.symm
  height_ne_zero hne := absurd h.idle.1 hne
  no_slots := h.idle.2
  adopted := h.other_idle.1
  slots_eq := h.other_idle.2.trans (record_of_idle h.idle.1).symm

theorem Mirrors.showsSame {part other : StakePart} (h : part.Mirrors other) :
    part.ShowsSame other where
  stake_eq := h.stake_eq
  pending_eq := h.pending_eq
  totalUnstaked_eq := h.totalUnstaked_eq
  slots_eq := h.slots_eq

end StakePart

end StakeLedger
