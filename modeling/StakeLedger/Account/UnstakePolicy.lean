/-
**How unstakes are kept pending and released.**

There are two policies.  The single policy keeps one pending amount, whose height each new unstake
replaces, and never releases it while its height is zero.  The slot policy keeps the unstakes apart,
up to a number of slots; an unstake beyond that joins the last slot.

Main definitions:

* `StakeLedger.UnstakePolicy` — the policies, with `StakeLedger.UnstakePolicy.ofRevision`;
* `StakeLedger.UnstakePolicy.pending`, `StakeLedger.UnstakePolicy.matured` — what a policy counts as
  pending, and what of it is unlocked at a height;
* `StakeLedger.UnstakePolicy.push`, `StakeLedger.UnstakePolicy.reclaim`,
  `StakeLedger.UnstakePolicy.releaseMatured` — adding an unstake, taking some of it back, and taking
  out what is unlocked, with `StakeLedger.UnstakePolicy.release` for what that leaves;
* `StakeLedger.UnstakePolicy.raise`, `StakeLedger.UnstakePolicy.lower` — the same with the stake.

Main results:

* `StakeLedger.UnstakePolicy.releaseMatured_snd` — taking out what is unlocked leaves `release`.
-/
import StakeLedger.Account.Stake

set_option autoImplicit false

namespace StakeLedger

/-- How unstakes are kept pending. -/
inductive UnstakePolicy
  /-- One amount with one height. -/
  | single
  /-- Several slots in order of unlocking. -/
  | slots
  deriving DecidableEq, Repr

namespace UnstakePolicy

/-- The policy of a revision. -/
def ofRevision (revision : Revision) : UnstakePolicy :=
  if revision.hasMultipleUnstake then .slots else .single

/-- Whether the single pending amount of a part is unlocked at a height. -/
def singleUnlocked (part : StakePart) (height : Nat) : Bool :=
  decide (0 < part.unstake ∧ part.unstakeHeight ≠ 0 ∧ part.unstakeHeight ≤ height)

/-- What a policy counts as pending. -/
def pending (policy : UnstakePolicy) (part : StakePart) : Int :=
  match policy with
  | .single => part.unstake
  | .slots => part.pending

/-- What is unlocked at a height, as it is told before it is taken out. -/
def matured (policy : UnstakePolicy) (part : StakePart) (height : Nat) : Int :=
  match policy with
  | .single => if singleUnlocked part height then part.unstake else 0
  | .slots =>
      -- the single shape counts as the slot that a release makes of it
      (if 0 < part.unstake ∧ part.unstakeHeight ≤ height then part.unstake else 0) +
        Slot.total (part.slots.filter (Slot.matured height))

/-- The part with `amount` newly unstaked, which unlocks at `unlockHeight`. -/
def push (policy : UnstakePolicy) (part : StakePart) (amount : Int) (unlockHeight slotMax : Nat) :
    StakePart :=
  match policy with
  | .single => { part with unstake := part.unstake + amount, unstakeHeight := unlockHeight }
  | .slots =>
      let part := part.adopt
      let slots :=
        if part.slots.length < slotMax then Slot.insert ⟨amount, unlockHeight⟩ part.slots
        else Slot.raiseLast amount unlockHeight part.slots
      { part with slots }

/-- The part with up to `amount` taken out of what is pending, the earliest first. -/
def reclaim (policy : UnstakePolicy) (part : StakePart) (amount : Int) : StakePart :=
  match policy with
  | .single =>
      let unstake := part.unstake - min amount part.unstake
      { part with
        unstake
        unstakeHeight := if unstake = 0 then 0 else part.unstakeHeight }
  | .slots =>
      let part := part.adopt
      { part with slots := Slot.drain amount part.slots }

/-- The part without what is unlocked at a height. -/
def release (policy : UnstakePolicy) (part : StakePart) (height : Nat) : StakePart :=
  match policy with
  | .single =>
      if singleUnlocked part height then { part with unstake := 0, unstakeHeight := 0 } else part
  | .slots =>
      let part := part.adopt
      { part with slots := part.slots.filter fun slot => !slot.matured height }

/-- Takes out what is unlocked at a height: how much that is, and the part without it. -/
def releaseMatured (policy : UnstakePolicy) (part : StakePart) (height : Nat) : Int × StakePart :=
  match policy with
  | .single =>
      if singleUnlocked part height then
        (part.unstake, { part with unstake := 0, unstakeHeight := 0 })
      else (0, part)
  | .slots =>
      let part := part.adopt
      let (released, kept) := Slot.takeMatured height part.slots
      (released, { part with slots := kept })

@[simp] theorem releaseMatured_snd (policy : UnstakePolicy) (part : StakePart) (height : Nat) :
    (policy.releaseMatured part height).2 = policy.release part height := by
  cases policy with
  | single =>
      simp only [releaseMatured, release]
      split <;> rfl
  | slots => simp only [releaseMatured, release, Slot.takeMatured_eq]

/-- How much of an increase of the stake by `delta` is taken out of what is pending. -/
def reclaimable (policy : UnstakePolicy) (part : StakePart) (delta : Int) : Int :=
  min delta (policy.pending part)

/-- How much of an increase of the stake by `delta` the balance has to pay. -/
def payable (policy : UnstakePolicy) (part : StakePart) (delta : Int) : Int :=
  delta - policy.reclaimable part delta

/-- The part with its stake raised by `delta`, from what is pending as far as that reaches. -/
def raise (policy : UnstakePolicy) (part : StakePart) (delta : Int) : StakePart :=
  { policy.reclaim part (policy.reclaimable part delta) with stake := part.stake + delta }

/-- The part with its stake lowered by `released`, which becomes pending. -/
def lower (policy : UnstakePolicy) (part : StakePart) (released : Int)
    (unlockHeight slotMax : Nat) : StakePart :=
  { policy.push part released unlockHeight slotMax with
    stake := part.stake - released
    totalUnstaked := part.totalUnstaked + released }

end UnstakePolicy

end StakeLedger
