/-
**Totals in the width of an amount.**

The totals of a part are formed by adding amounts one after the other, without a check.  Here they
are formed in the same order, and are missing where a sum on the way is no amount.

Main definitions:

* `StakeLedger.Slot.total?`, `StakeLedger.StakePart.pending?`, `StakeLedger.StakePart.totalStake?`,
  `StakeLedger.UnstakePolicy.matured?` — the totals of a stake part;
* `StakeLedger.DelegationPart.given?` — the total of a delegation part.
-/
import StakeLedger.Account.Delegation
import StakeLedger.Account.UnstakePolicy

set_option autoImplicit false

namespace StakeLedger

/-- What slots hold together. -/
def Slot.total? (slots : List Slot) : Option Int := Amount.sum? 0 (slots.map Slot.amount)

/-- All that is pending. -/
def StakePart.pending? (part : StakePart) : Option Int := do
  Amount.add? part.unstake (← Slot.total? part.slots)

/-- The stake and all that is pending. -/
def StakePart.totalStake? (part : StakePart) : Option Int := do
  Amount.add? part.stake (← part.pending?)

/-- What a policy counts as pending. -/
def UnstakePolicy.pending? (policy : UnstakePolicy) (part : StakePart) : Option Int :=
  match policy with
  | .single => some part.unstake
  | .slots => part.pending?

/-- What is unlocked at a height. -/
def UnstakePolicy.matured? (policy : UnstakePolicy) (part : StakePart) (height : Nat) :
    Option Int :=
  match policy with
  | .single => some (policy.matured part height)
  | .slots => do
      let adopted := if 0 < part.unstake ∧ part.unstakeHeight ≤ height then part.unstake else 0
      Amount.add? adopted (← Slot.total? (part.slots.filter (Slot.matured height)))

/-- What the account delegates in all. -/
def DelegationPart.given? (part : DelegationPart) : Option Int :=
  Amount.sum? 0 (part.delegations.map Delegation.amount)

end StakeLedger
