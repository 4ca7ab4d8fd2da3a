/-
**Counting what is unstaked.**

All that was ever unstaked is counted in one amount.  The count is no part of what is checked before
a stake is changed: it is added to when the stake is already lowered and the difference already
pending.  Where the sum is no amount the operation breaks off there, and what it has done so far
stays done.

Main definitions:

* `StakeLedger.CountingM` — changes of an account that are refused or break off;
* `StakeLedger.Account.setStakeCounting` — the change of a stake with its count;
* `StakeLedger.Account.performCounting`, `StakeLedger.Account.runCounting` — operations and
  sequences of them, up to the one that breaks off.
-/
import StakeLedger.Account.Basic

set_option autoImplicit false

namespace StakeLedger

open AccountM

/-- Why an operation on an account did not come to its end. -/
inductive Account.Halt
  | refused (error : LedgerError)
  /-- What was counted is no amount any more. -/
  | overflow
  deriving DecidableEq, Repr

/-- A change of an account that may be refused or break off, and keeps what was done before. -/
abbrev CountingM := ExceptT Account.Halt (StateM Account)

/-- A change in which nothing is counted. -/
def CountingM.ofChange {α : Type} (change : AccountM α) : CountingM α := fun account =>
  let (result, after) := change account
  (result.mapError .refused, after)

/-- The part with its stake lowered by `released`, which is pending but not counted. -/
def UnstakePolicy.takeOff (policy : UnstakePolicy) (part : StakePart) (released : Int)
    (unlockHeight slotMax : Nat) : StakePart :=
  { policy.push part released unlockHeight slotMax with stake := part.stake - released }

namespace Account

open CountingM

/-- Adds to the count of what was unstaked. -/
def count (released : Int) : CountingM Unit := do
  let part ← ofChange (view stakePart)
  match Amount.add? part.totalUnstaked released with
  | some total => ofChange (change (putStake { part with totalUnstaked := total }))
  | none => throw .overflow

/-- Lowers the stake by `released`, which becomes pending and is counted in the end. -/
def lowerCounting (ctx : StakingContext) (released : Int) : CountingM Unit := do
  ofChange (refuseIf (maxHeight < ctx.unlockHeight) (.invalidParameter .unlockHeightOverflow))
  ofChange (update stakePart
    (fun part => .ok (ctx.policy.takeOff part released ctx.unlockHeight ctx.slotMax)) putStake)
  count released

/-- Moves the stake from where it is to `value`. -/
def moveCounting (ctx : StakingContext) (stake value : Int) : CountingM Unit :=
  if value < stake then lowerCounting ctx (stake - value) else ofChange (moveStake ctx stake value)

/-- The stake that is to be changed to `value`, once that is found to be possible. -/
def checkStake (ctx : StakingContext) (value : Int) : AccountM Int := do
  refuseIf (value < 0) (.invalidParameter (.negativeStake value))
  refuseIf (ctx.policy = .slots ∧ ctx.slotMax = 0) (.invalidParameter .noSlots)
  let coin ← view coinPart
  let part ← view stakePart
  let available ← ofResult (funds coin.balance part.stake (ctx.policy.pending part))
  refuseIf (available < value) (.outOfBalance value available)
  return part.stake

/-- Changes the stake to `value`, and counts what that unstakes. -/
def setStakeCounting (ctx : StakingContext) (value : Int) : CountingM Unit := do
  let stake ← ofChange (checkStake ctx value)
  moveCounting ctx stake value
  ofChange (change synced)

/-- The change that an operation is, with its count. -/
def Operation.counting : Operation → CountingM Unit
  | .setStake ctx value => setStakeCounting ctx value
  | operation => ofChange operation.change

/-- Performs an operation: how it ended, and the account it leaves behind. -/
def performCounting (account : Account) (operation : Operation) : Except Halt Unit × Account :=
  operation.counting.run account

/-- The account after a sequence of operations, whether they are accepted or not; the error is the
account that the operation leaves behind which breaks off. -/
def runCounting (account : Account) : List Operation → Except Account Account
  | [] => .ok account
  | operation :: rest =>
      match account.performCounting operation with
      | (.error .overflow, left) => .error left
      | (_, after) => after.runCounting rest

end Account

end StakeLedger
