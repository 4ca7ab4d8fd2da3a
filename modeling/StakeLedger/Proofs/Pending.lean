/-
**What the unstake policies do to a stake part.**

A stake part is sound if its amounts have the right signs and its slots are valid, in both shapes at
once.  Every operation of either policy keeps a part sound, leaves the stake alone, and changes what
is pending by exactly the amount that it is given or gives back.

Main definitions:

* `StakeLedger.StakePart.Sound` — sound parts.

Main results:

* `StakeLedger.UnstakePolicy.schedule_push`, `StakeLedger.UnstakePolicy.schedule_reclaim`,
  `StakeLedger.UnstakePolicy.schedule_release` — the schedule after each operation of the slot policy;
* `StakeLedger.UnstakePolicy.matured_schedule` — what is unlocked, read off the schedule;
* `StakeLedger.UnstakePolicy.pending_push`, `StakeLedger.UnstakePolicy.pending_reclaim`,
  `StakeLedger.UnstakePolicy.pending_release` — what is pending afterwards;
* `StakeLedger.StakePart.Sound.push`, `StakeLedger.StakePart.Sound.reclaim`,
  `StakeLedger.StakePart.Sound.release` — sound parts stay sound;
* `StakeLedger.StakePart.Sound.lower`, `StakeLedger.StakePart.Sound.raise` — also while the stake
  changes.
-/
import StakeLedger.Account.UnstakePolicy
import StakeLedger.Proofs.Slots

set_option autoImplicit false

namespace StakeLedger

/-! ### Sound parts -/

/-- A part none of whose amounts is negative, with valid slots. -/
structure StakePart.Sound (part : StakePart) : Prop where
  stake_nonneg : 0 ≤ part.stake
  unstake_nonneg : 0 ≤ part.unstake
  slots_valid : Slot.Valid part.slots

namespace StakePart

variable {part : StakePart}

theorem Sound.empty : Sound empty := ⟨Int.le_refl 0, Int.le_refl 0, Slot.Valid.nil⟩

theorem Sound.pending_nonneg (h : part.Sound) : 0 ≤ part.pending := by
  have hunstake := h.unstake_nonneg
  have hslots := h.slots_valid.total_nonneg
  unfold pending
  omega

/-! ### Adopting the single shape -/

@[simp] theorem adopt_stake (part : StakePart) : part.adopt.stake = part.stake := by
  unfold adopt
  split <;> rfl

@[simp] theorem adopt_unstake (part : StakePart) : part.adopt.unstake = 0 := by
  unfold adopt
  split
  · next h => exact h
  · rfl

@[simp] theorem adopt_totalUnstaked (part : StakePart) :
    part.adopt.totalUnstaked = part.totalUnstaked := by
  unfold adopt
  split <;> rfl

/-- A part without a single amount has its slots as its schedule. -/
theorem schedule_of_unstake_eq_zero (h : part.unstake = 0) : part.schedule = part.slots := by
  rw [schedule, adopt, if_pos h]

theorem adopt_of_unstake_eq_zero (h : part.unstake = 0) : part.adopt = part := if_pos h

theorem adopt_adopt (part : StakePart) : part.adopt.adopt = part.adopt :=
  adopt_of_unstake_eq_zero (adopt_unstake part)

theorem Sound.adopt (h : part.Sound) : part.adopt.Sound := by
  refine ⟨by simpa using h.stake_nonneg, by simp, ?_⟩
  unfold StakePart.adopt
  split
  · exact h.slots_valid
  · next hne =>
      refine h.slots_valid.insert ?_
      have := h.unstake_nonneg
      change 0 < part.unstake
      omega

end StakePart

namespace UnstakePolicy

variable {policy : UnstakePolicy} {part : StakePart}

theorem pending_nonneg (h : part.Sound) (policy : UnstakePolicy) : 0 ≤ policy.pending part := by
  cases policy with
  | single => exact h.unstake_nonneg
  | slots => exact h.pending_nonneg

/-! ### The schedule under the slot policy

Each operation adopts the single amount first, so that the slots it leaves are all of the schedule. -/

theorem schedule_push (part : StakePart) (amount : Int) (unlockHeight slotMax : Nat) :
    (push .slots part amount unlockHeight slotMax).schedule =
      if part.schedule.length < slotMax then Slot.insert ⟨amount, unlockHeight⟩ part.schedule
      else Slot.raiseLast amount unlockHeight part.schedule :=
  StakePart.schedule_of_unstake_eq_zero (StakePart.adopt_unstake part)

theorem schedule_lower (part : StakePart) (released : Int) (unlockHeight slotMax : Nat) :
    (lower .slots part released unlockHeight slotMax).schedule =
      if part.schedule.length < slotMax then Slot.insert ⟨released, unlockHeight⟩ part.schedule
      else Slot.raiseLast released unlockHeight part.schedule :=
  StakePart.schedule_of_unstake_eq_zero (StakePart.adopt_unstake part)

theorem schedule_reclaim (part : StakePart) (amount : Int) :
    (reclaim .slots part amount).schedule = Slot.drain amount part.schedule :=
  StakePart.schedule_of_unstake_eq_zero (StakePart.adopt_unstake part)

theorem schedule_raise (part : StakePart) (delta : Int) :
    (raise .slots part delta).schedule =
      Slot.drain (reclaimable .slots part delta) part.schedule :=
  StakePart.schedule_of_unstake_eq_zero (StakePart.adopt_unstake part)

theorem schedule_release (part : StakePart) (height : Nat) :
    (release .slots part height).schedule =
      part.schedule.filter fun slot => !slot.matured height :=
  StakePart.schedule_of_unstake_eq_zero (StakePart.adopt_unstake part)

/-! ### Adopting before and after the slot policy

Nor is there anything left to adopt, and whether the single amount was adopted before makes no
difference. -/

theorem adopt_lower (part : StakePart) (released : Int) (unlockHeight slotMax : Nat) :
    (lower .slots part released unlockHeight slotMax).adopt =
      lower .slots part released unlockHeight slotMax :=
  StakePart.adopt_of_unstake_eq_zero (StakePart.adopt_unstake part)

theorem adopt_reclaim (part : StakePart) (amount : Int) :
    (reclaim .slots part amount).adopt = reclaim .slots part amount :=
  StakePart.adopt_of_unstake_eq_zero (StakePart.adopt_unstake part)

theorem adopt_raise (part : StakePart) (delta : Int) :
    (raise .slots part delta).adopt = raise .slots part delta :=
  StakePart.adopt_of_unstake_eq_zero (StakePart.adopt_unstake part)

theorem adopt_release (part : StakePart) (height : Nat) :
    (release .slots part height).adopt = release .slots part height :=
  StakePart.adopt_of_unstake_eq_zero (StakePart.adopt_unstake part)

theorem push_adopt (part : StakePart) (amount : Int) (unlockHeight slotMax : Nat) :
    push .slots part.adopt amount unlockHeight slotMax =
      push .slots part amount unlockHeight slotMax := by
  simp only [push, StakePart.adopt_adopt]

theorem lower_adopt (part : StakePart) (released : Int) (unlockHeight slotMax : Nat) :
    lower .slots part.adopt released unlockHeight slotMax =
      lower .slots part released unlockHeight slotMax := by
  simp only [lower, push_adopt, StakePart.adopt_stake, StakePart.adopt_totalUnstaked]

theorem reclaim_adopt (part : StakePart) (amount : Int) :
    reclaim .slots part.adopt amount = reclaim .slots part amount := by
  simp only [reclaim, StakePart.adopt_adopt]

theorem payable_adopt (part : StakePart) (delta : Int) :
    payable .slots part.adopt delta = payable .slots part delta := by
  simp only [payable, reclaimable, pending, StakePart.pending_adopt]

theorem raise_adopt (part : StakePart) (delta : Int) :
    raise .slots part.adopt delta = raise .slots part delta := by
  simp only [raise, reclaimable, pending, StakePart.pending_adopt, reclaim_adopt,
    StakePart.adopt_stake]

theorem release_adopt (part : StakePart) (height : Nat) :
    release .slots part.adopt height = release .slots part height := by
  simp only [release, StakePart.adopt_adopt]

/-! ### Adding an unstake -/

@[simp] theorem push_stake (amount : Int) (unlockHeight slotMax : Nat) :
    (policy.push part amount unlockHeight slotMax).stake = part.stake := by
  cases policy with
  | single => rfl
  | slots => exact StakePart.adopt_stake part

/-- A new unstake becomes pending, as long as a slot may be used where slots are. -/
theorem pending_push {slotMax : Nat} (room : policy = .slots → slotMax ≠ 0) (amount : Int)
    (unlockHeight : Nat) :
    (policy.push part amount unlockHeight slotMax).pending = part.pending + amount := by
  cases policy with
  | single =>
      simp only [push, StakePart.pending]
      omega
  | slots =>
      rw [← StakePart.total_schedule, ← StakePart.total_schedule part, schedule_push]
      split
      · rw [Slot.total_insert]
        exact Int.add_comm _ _
      · next hfull => exact Slot.total_raiseLast (Slot.ne_nil_of_full (room rfl) hfull) _ _

/-! ### Taking some back -/

@[simp] theorem reclaim_stake (amount : Int) :
    (policy.reclaim part amount).stake = part.stake := by
  cases policy with
  | single => rfl
  | slots => exact StakePart.adopt_stake part

/-- What is taken back is no longer pending. -/
theorem pending_reclaim {amount : Int} (nonneg : 0 ≤ amount)
    (enough : amount ≤ policy.pending part) :
    (policy.reclaim part amount).pending = part.pending - amount := by
  cases policy with
  | single =>
      have hmin : min amount part.unstake = amount := Int.min_eq_left enough
      simp only [reclaim, StakePart.pending, hmin]
      omega
  | slots =>
      have hreach : amount ≤ Slot.total part.schedule := by
        rw [StakePart.total_schedule]
        exact enough
      rw [← StakePart.total_schedule, ← StakePart.total_schedule part, schedule_reclaim,
        Slot.total_drain nonneg hreach]

/-! ### Releasing -/

/-- Nothing negative is unlocked, in whatever order the slots are. -/
theorem matured_nonneg_of_amounts (nonneg : 0 ≤ part.unstake)
    (amounts : ∀ slot ∈ part.slots, 0 < slot.amount) (policy : UnstakePolicy) (height : Nat) :
    0 ≤ policy.matured part height := by
  have hslots : 0 ≤ Slot.total (part.slots.filter (Slot.matured height)) :=
    Slot.total_nonneg fun slot hslot => amounts slot (List.mem_filter.1 hslot).1
  cases policy with
  | single =>
      simp only [matured]
      split <;> omega
  | slots =>
      simp only [matured]
      split <;> omega

theorem matured_nonneg (h : part.Sound) (policy : UnstakePolicy) (height : Nat) :
    0 ≤ policy.matured part height :=
  matured_nonneg_of_amounts h.unstake_nonneg h.slots_valid.1 policy height

/-- The slot policy counts as unlocked what is unlocked of the schedule: the single shape counts
where adopting it puts it. -/
theorem matured_schedule (nonneg : 0 ≤ part.unstake) (height : Nat) :
    matured .slots part height = Slot.total (part.schedule.filter (Slot.matured height)) := by
  unfold StakePart.schedule StakePart.adopt
  split
  · next hzero => simp [matured, hzero]
  · next hne =>
      have hpos : 0 < part.unstake := by omega
      simp only [Slot.total_filter_insert, matured, Slot.matured, hpos, true_and,
        decide_eq_true_eq]

/-- The single policy counts all that it knows, or nothing. -/
theorem matured_single (part : StakePart) (height : Nat) :
    matured .single part height =
      if 0 < part.unstake ∧ part.unstakeHeight ≠ 0 ∧ part.unstakeHeight ≤ height then part.unstake
      else 0 := by
  simp only [matured, singleUnlocked, decide_eq_true_eq]

theorem release_single (part : StakePart) (height : Nat) :
    release .single part height =
      if 0 < part.unstake ∧ part.unstakeHeight ≠ 0 ∧ part.unstakeHeight ≤ height then
        { part with unstake := 0, unstakeHeight := 0 }
      else part := by
  simp only [release, singleUnlocked, decide_eq_true_eq]

@[simp] theorem release_stake (height : Nat) : (policy.release part height).stake = part.stake := by
  cases policy with
  | single =>
      simp only [release]
      split <;> rfl
  | slots => exact StakePart.adopt_stake part

/-- What is unlocked is no longer pending. -/
theorem pending_release (h : part.Sound) (policy : UnstakePolicy) (height : Nat) :
    (policy.release part height).pending = part.pending - policy.matured part height := by
  have hunstake := h.unstake_nonneg
  cases policy with
  | single =>
      simp only [release, matured]
      split
      · simp only [StakePart.pending]
        omega
      · omega
  | slots =>
      have hsplit := Slot.total_filter_add_total_filter_not (Slot.matured height) part.schedule
      rw [← StakePart.total_schedule, ← StakePart.total_schedule part, schedule_release,
        matured_schedule hunstake]
      omega

/-! ### Changing the stake -/

/-- An increase takes out of what is pending what the balance does not have to pay. -/
theorem pending_raise (h : part.Sound) {delta : Int} (pos : 0 ≤ delta) (policy : UnstakePolicy) :
    (policy.raise part delta).pending = part.pending - policy.reclaimable part delta := by
  have hpending := pending_nonneg h policy
  have hle := Int.min_le_right delta (policy.pending part)
  exact pending_reclaim (Int.le_min.2 ⟨pos, hpending⟩) hle

/-- The balance is never asked for a negative amount. -/
theorem payable_nonneg (policy : UnstakePolicy) (part : StakePart) (delta : Int) :
    0 ≤ policy.payable part delta := by
  have := Int.min_le_left delta (policy.pending part)
  unfold payable reclaimable
  omega

/-- The balance reaches for an increase if all funds together do. -/
theorem payable_le {balance delta : Int} (nonneg : 0 ≤ balance)
    (funded : delta ≤ balance + policy.pending part) : policy.payable part delta ≤ balance := by
  unfold payable reclaimable
  omega

/-- What a decrease takes off the stake is pending afterwards. -/
theorem pending_lower {slotMax : Nat} (room : policy = .slots → slotMax ≠ 0) (released : Int)
    (unlockHeight : Nat) :
    (policy.lower part released unlockHeight slotMax).pending = part.pending + released :=
  pending_push room released unlockHeight

end UnstakePolicy

/-! ### Sound parts stay sound -/

namespace StakePart

open UnstakePolicy

variable {part : StakePart}

theorem Sound.push (h : part.Sound) {amount : Int} (pos : 0 < amount) (policy : UnstakePolicy)
    (unlockHeight slotMax : Nat) : (policy.push part amount unlockHeight slotMax).Sound := by
  cases policy with
  | single =>
      refine ⟨h.stake_nonneg, ?_, h.slots_valid⟩
      have := h.unstake_nonneg
      change 0 ≤ part.unstake + amount
      omega
  | slots =>
      refine ⟨h.adopt.stake_nonneg, h.adopt.unstake_nonneg, ?_⟩
      simp only [UnstakePolicy.push]
      split
      · exact h.adopt.slots_valid.insert pos
      · exact h.adopt.slots_valid.raiseLast (Int.le_of_lt pos)

theorem Sound.reclaim (h : part.Sound) (policy : UnstakePolicy) (amount : Int) :
    (policy.reclaim part amount).Sound := by
  cases policy with
  | single =>
      refine ⟨h.stake_nonneg, ?_, h.slots_valid⟩
      have := Int.min_le_right amount part.unstake
      change 0 ≤ part.unstake - min amount part.unstake
      omega
  | slots =>
      exact ⟨h.adopt.stake_nonneg, h.adopt.unstake_nonneg, h.adopt.slots_valid.drain amount⟩

theorem Sound.release (h : part.Sound) (policy : UnstakePolicy) (height : Nat) :
    (policy.release part height).Sound := by
  cases policy with
  | single =>
      simp only [UnstakePolicy.release]
      split
      · exact ⟨h.stake_nonneg, Int.le_refl 0, h.slots_valid⟩
      · exact h
  | slots =>
      exact ⟨h.adopt.stake_nonneg, h.adopt.unstake_nonneg, h.adopt.slots_valid.filter _⟩

theorem Sound.raise (h : part.Sound) {delta : Int} (pos : 0 ≤ delta) (policy : UnstakePolicy) :
    (policy.raise part delta).Sound := by
  obtain ⟨-, hunstake, hslots⟩ := h.reclaim policy (policy.reclaimable part delta)
  refine ⟨?_, hunstake, hslots⟩
  have := h.stake_nonneg
  change 0 ≤ part.stake + delta
  omega

theorem Sound.lower (h : part.Sound) {released : Int} (pos : 0 < released)
    (enough : released ≤ part.stake) (policy : UnstakePolicy) (unlockHeight slotMax : Nat) :
    (policy.lower part released unlockHeight slotMax).Sound := by
  obtain ⟨-, hunstake, hslots⟩ := h.push pos policy unlockHeight slotMax
  refine ⟨?_, hunstake, hslots⟩
  change 0 ≤ part.stake - released
  omega

end StakePart

/-- No more is unlocked than is pending. -/
theorem UnstakePolicy.matured_le_pending {part : StakePart} (h : part.Sound)
    (policy : UnstakePolicy) (height : Nat) : policy.matured part height ≤ part.pending := by
  have hrest := (h.release policy height).pending_nonneg
  rw [pending_release h] at hrest
  omega

end StakeLedger
