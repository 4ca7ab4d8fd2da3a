/-
**Staking parameters and the lock period.**

The parameters are fixed for the whole network.  How long an unstaked amount stays locked follows
from them and from the part of the total supply that is staked: nothing staked locks it for the
longest period, and from the reward point on the shortest period is enough; in between the period
falls with the square of the gap to the reward point.

Main definitions:

* `StakeLedger.Params`, `StakeLedger.Params.validate` — the parameters and their consistency;
* `StakeLedger.Params.stakeRate`, `StakeLedger.Params.lockPeriod` — the staked part of the supply in
  percent, and the lock period in blocks.
-/
set_option autoImplicit false

namespace StakeLedger

/-- The staking parameters of a network. -/
structure Params where
  /-- How many unstakes may be pending for one account, where several may. -/
  slotMax : Nat
  /-- The shortest lock period in blocks. -/
  lockMin : Nat
  /-- The longest lock period in blocks. -/
  lockMax : Nat
  /-- The staked percentage of the supply at which the lock period is shortest. -/
  rewardPoint : Nat
  deriving DecidableEq, Repr

namespace Params

/-- How many blocks a day has, at one block every two seconds. -/
def blocksPerDay : Nat := 43200

/-- The parameters of the main network. -/
def mainNetwork : Params where
  slotMax := 1000
  lockMin := 5 * blocksPerDay
  lockMax := 20 * blocksPerDay
  rewardPoint := 70

instance : Inhabited Params := ⟨mainNetwork⟩

/-- Why parameters are inconsistent. -/
inductive Fault
  | noSlots
  | lockBoundsInverted (lockMin lockMax : Nat)
  | rewardPointOutOfRange (rewardPoint : Nat)
  deriving DecidableEq, Repr

/-- The wording of a fault. -/
def Fault.message : Fault → String
  | .noSlots => "unstake_slot_max must be positive"
  | .lockBoundsInverted lockMin lockMax =>
      s!"unstake_lock_min ({lockMin}) exceeds unstake_lock_max ({lockMax})"
  | .rewardPointOutOfRange rewardPoint =>
      s!"reward_point must be in 1..=100, got {rewardPoint}"

/-- Whether the parameters are consistent; of several faults the first is given. -/
def validate (params : Params) : Except Fault Unit :=
  if params.slotMax = 0 then .error .noSlots
  else if params.lockMax < params.lockMin then
    .error (.lockBoundsInverted params.lockMin params.lockMax)
  else if params.rewardPoint = 0 ∨ 100 < params.rewardPoint then
    .error (.rewardPointOutOfRange params.rewardPoint)
  else .ok ()

/-! ### The lock period -/

/-- The staked part of a positive supply in percent, rounded down.  A negative stake counts as none,
and the hundredfold stake is cut off at the greatest natural number of 128 bits. -/
def stakeRate (totalStake totalSupply : Int) : Nat :=
  min (totalStake.toNat * 100) 0xffffffffffffffffffffffffffffffff / totalSupply.toNat

/-- For how many blocks an unstaked amount stays locked. -/
def lockPeriod (params : Params) (totalStake totalSupply : Int) : Nat :=
  -- where the bounds are inverted, the period is always the shortest
  let lockMax := max params.lockMax params.lockMin
  if totalSupply ≤ 0 ∨ params.rewardPoint = 0 then lockMax
  else
    let rate := stakeRate totalStake totalSupply
    if params.rewardPoint ≤ rate then params.lockMin
    else
      let gap := params.rewardPoint - rate
      let span := lockMax - params.lockMin
      params.lockMin + span * gap * gap / (params.rewardPoint * params.rewardPoint)

end Params

end StakeLedger
