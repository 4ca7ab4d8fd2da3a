/-
**Accounts.**

An account in memory holds whichever of its parts an operation needs.  An operation changes the
account in place, piece by piece, and either is accepted or gives the reason why it was refused.

A stake is changed by naming its new value.  An increase is paid from what is pending, the earliest
first, and then from the balance; a decrease becomes pending and unlocks a lock period later.
Normalizing moves what is unlocked into the balance.

Main definitions:

* `StakeLedger.StakingContext` — the state of the chain that a change of stake is judged by;
* `StakeLedger.Account` — accounts;
* `StakeLedger.AccountM` — changes of an account;
* `StakeLedger.Account.setStake`, `StakeLedger.Account.normalize` — moving amounts between balance,
  stake and pending unstakes;
* `StakeLedger.Account.Operation`, `StakeLedger.Account.perform`, `StakeLedger.Account.run` —
  operations as data, and sequences of them.
-/
import StakeLedger.Account.Delegation
import StakeLedger.Account.UnstakePolicy
import StakeLedger.Params
import StakeLedger.Stateful

set_option autoImplicit false

namespace StakeLedger

/-! ### The staking context -/

/-- The state of the chain that a change of stake is judged by. -/
structure StakingContext where
  height : Nat
  revision : Revision
  /-- For how many blocks an unstake is locked. -/
  lockPeriod : Nat
  /-- How many unstakes may be pending for one account. -/
  slotMax : Nat
  deriving DecidableEq, Repr

/-- The policy by which unstakes are kept. -/
def StakingContext.policy (ctx : StakingContext) : UnstakePolicy := .ofRevision ctx.revision

/-- The height at which what is unstaked now unlocks. -/
def StakingContext.unlockHeight (ctx : StakingContext) : Nat := ctx.height + ctx.lockPeriod

/-- The context whose lock period follows from the staked part of the supply. -/
def StakingContext.ofParams (height : Nat) (revision : Revision) (params : Params)
    (totalStake totalSupply : Int) : StakingContext where
  height := height
  revision := revision
  lockPeriod := params.lockPeriod totalStake totalSupply
  slotMax := params.slotMax

/-! ### Accounts -/

/-- An account with the parts that are loaded. -/
structure Account where
  address : Address
  /-- The block height as of which the account is seen. -/
  height : Nat
  revision : Revision
  coin : Option CoinPart
  stake : Option StakePart
  delegation : Option DelegationPart
  deriving DecidableEq, Repr

namespace Account

/-- An account with no part loaded. -/
def unloaded (address : Address) (height : Nat) (revision : Revision) : Account where
  address := address
  height := height
  revision := revision
  coin := none
  stake := none
  delegation := none

/-- The coin part, which has to be loaded. -/
def coinPart (account : Account) : Except LedgerError CoinPart :=
  match account.coin with
  | some part => .ok part
  | none => .error (.partNotLoaded .coin)

/-- The stake part, which has to be loaded. -/
def stakePart (account : Account) : Except LedgerError StakePart :=
  match account.stake with
  | some part => .ok part
  | none => .error (.partNotLoaded .stake)

/-- The delegation part, which has to be loaded. -/
def delegationPart (account : Account) : Except LedgerError DelegationPart :=
  match account.delegation with
  | some part => .ok part
  | none => .error (.partNotLoaded .delegation)

/-! ### Views -/

/-- The height at which the single pending amount unlocks; zero where slots are kept. -/
def unstakeHeight (account : Account) : Except LedgerError Nat := do
  let part ← account.stakePart
  return match UnstakePolicy.ofRevision account.revision with
    | .single => part.unstakeHeight
    | .slots => 0

/-- The pending unstakes in order; none where a single amount is kept. -/
def schedule (account : Account) : Except LedgerError (List Slot) := do
  let part ← account.stakePart
  return match UnstakePolicy.ofRevision account.revision with
    | .single => []
    | .slots => part.schedule

/-- The stake and all that is pending. -/
def totalStake (account : Account) : Except LedgerError Int := do
  let part ← account.stakePart
  return part.stake + part.pending

end Account

/-! ### Changing an account -/

/-- A change of an account, which may fail and keeps what was done before it did. -/
abbrev AccountM := ExceptT LedgerError (StateM Account)

namespace AccountM

open Stateful

/-- What is seen of the account. -/
def view {α : Type} (look : Account → Except LedgerError α) : AccountM α :=
  fun account => (look account, account)

/-- A result that does not depend on the account. -/
def ofResult {α : Type} (result : Except LedgerError α) : AccountM α :=
  fun account => (result, account)

/-- A change that does not fail. -/
def change (f : Account → Account) : AccountM Unit :=
  fun account => (.ok (), f account)

/-- Refuses to go on under a condition. -/
def refuseIf (condition : Prop) [Decidable condition] (error : LedgerError) : AccountM Unit :=
  if condition then throw error else pure ()

/-- Changes what is seen of the account, and puts the outcome back. -/
def update {α : Type} (look : Account → Except LedgerError α) (f : α → Except LedgerError α)
    (put : α → Account → Account) : AccountM Unit := do
  let part ← ofResult (f (← view look))
  change (put part)

variable {α : Type} {account : Account} {error : LedgerError}

theorem view_eq {look : Account → Except LedgerError α} {result : Except LedgerError α}
    (h : look account = result) : view look account = (result, account) := by
  rw [view, h]

theorem ofResult_eq {found result : Except LedgerError α} (h : found = result) :
    ofResult found account = (result, account) := by
  rw [ofResult, h]

@[simp] theorem change_apply (f : Account → Account) (account : Account) :
    change f account = (.ok (), f account) := rfl

theorem refuseIf_of {condition : Prop} [Decidable condition] (h : condition) :
    refuseIf condition error account = (.error error, account) := by
  rw [refuseIf, if_pos h]
  rfl

theorem refuseIf_of_not {condition : Prop} [Decidable condition] (h : ¬condition) :
    refuseIf condition error account = (.ok (), account) := by
  rw [refuseIf, if_neg h]
  rfl

variable {look : Account → Except LedgerError α} {f : α → Except LedgerError α}
variable {put : α → Account → Account} {part changed : α}

theorem update_of_ok (hlook : look account = .ok part) (hf : f part = .ok changed) :
    update look f put account = (.ok (), put changed account) := by
  rw [update, bind_of_ok (view_eq hlook)]
  exact bind_of_ok (ofResult_eq hf) _

theorem update_of_error (hlook : look account = .ok part) (hf : f part = .error error) :
    update look f put account = (.error error, account) := by
  rw [update, bind_of_ok (view_eq hlook)]
  exact bind_of_error (ofResult_eq hf) _

theorem update_of_unseen (hlook : look account = .error error) :
    update look f put account = (.error error, account) :=
  bind_of_error (view_eq hlook) _

end AccountM

namespace Account

open AccountM

/-! ### Balance -/

/-- The account with another coin part. -/
def putCoin (coin : CoinPart) (account : Account) : Account := { account with coin := some coin }

/-- Adds to the balance. -/
def deposit (amount : Int) : AccountM Unit :=
  update coinPart (fun coin => coin.deposit amount) putCoin

/-- Takes out of the balance. -/
def withdraw (amount : Int) : AccountM Unit :=
  update coinPart (fun coin => coin.withdraw amount) putCoin

/-! ### Stake -/

/-- The account whose coin part says by its flag whether an unstake is pending. -/
def synced (account : Account) : Account :=
  match account.coin, account.stake with
  | some coin, some stake =>
      let coin := coin.setFlag CoinPart.hasUnstakeFlag (decide (0 < stake.pending))
      { account with coin := some coin }
  | _, _ => account

@[simp] theorem synced_stake (account : Account) : account.synced.stake = account.stake := by
  unfold synced
  split <;> rfl

/-- The flag is all that changes in the coin part. -/
@[simp] theorem synced_balance (account : Account) :
    account.synced.coin.map CoinPart.balance = account.coin.map CoinPart.balance := by
  unfold synced
  split
  · next hcoin _ => simp [hcoin, CoinPart.setFlag]
  · rfl

/-- What a stake can be paid from: the balance, the stake and what is pending. -/
def funds (balance stake pending : Int) : Except LedgerError Int :=
  match Amount.sum? balance [stake, pending] with
  | some available => .ok available
  | none => .error (.invalidParameter .fundsOverflow)

/-- The account with another stake part. -/
def putStake (part : StakePart) (account : Account) : Account := { account with stake := some part }

/-- Raises the stake by `delta`, from what is pending first. -/
def raiseStake (policy : UnstakePolicy) (delta : Int) : AccountM Unit := do
  let part ← view stakePart
  withdraw (policy.payable part delta)
  update stakePart (fun part => .ok (policy.raise part delta)) putStake

/-- Lowers the stake by `released`, which becomes pending. -/
def lowerStake (ctx : StakingContext) (released : Int) : AccountM Unit := do
  refuseIf (maxHeight < ctx.unlockHeight) (.invalidParameter .unlockHeightOverflow)
  update stakePart
    (fun part => .ok (ctx.policy.lower part released ctx.unlockHeight ctx.slotMax)) putStake

/-- Moves the stake from where it is to `value`. -/
def moveStake (ctx : StakingContext) (stake value : Int) : AccountM Unit :=
  if stake < value then raiseStake ctx.policy (value - stake)
  else if value < stake then lowerStake ctx (stake - value)
  else pure ()

/-- Changes the stake to `value`. -/
def setStake (ctx : StakingContext) (value : Int) : AccountM Unit := do
  refuseIf (value < 0) (.invalidParameter (.negativeStake value))
  refuseIf (ctx.policy = .slots ∧ ctx.slotMax = 0) (.invalidParameter .noSlots)
  let coin ← view coinPart
  let part ← view stakePart
  let available ← ofResult (funds coin.balance part.stake (ctx.policy.pending part))
  refuseIf (available < value) (.outOfBalance value available)
  moveStake ctx part.stake value
  change synced

/-- Pays an amount into the balance, which is not asked for if there is nothing to pay. -/
def payIn (amount : Int) : AccountM Unit :=
  if 0 < amount then deposit amount else pure ()

/-- Moves what is unlocked into the balance. -/
def normalize (revision : Revision) : AccountM Unit := do
  let account ← get
  match account.stake with
  | none => pure ()
  | some part =>
      let policy := UnstakePolicy.ofRevision revision
      payIn (policy.matured part account.height)
      change (putStake (policy.releaseMatured part account.height).2)
      change synced

/-! ### Delegation -/

/-- The account with another delegation part. -/
def putDelegation (part : DelegationPart) (account : Account) : Account :=
  { account with delegation := some part }

/-- Changes what others delegated to the account. -/
def moveDelegated (delta : Int) : AccountM Unit :=
  update delegationPart (fun part => part.moveDelegated delta) putDelegation

/-- Replaces what the account delegates. -/
def setDelegations (delegations : List Delegation) : AccountM Unit :=
  update delegationPart (fun part => part.setDelegations delegations) putDelegation

/-! ### Operations as data -/

/-- An operation on an account. -/
inductive Operation
  | deposit (amount : Int)
  | withdraw (amount : Int)
  | setStake (ctx : StakingContext) (value : Int)
  | setHeight (height : Nat)
  | normalize (revision : Revision)
  | moveDelegated (delta : Int)
  | setDelegations (delegations : List Delegation)
  deriving DecidableEq, Repr

/-- The change that an operation is. -/
def Operation.change : Operation → AccountM Unit
  | .deposit amount => Account.deposit amount
  | .withdraw amount => Account.withdraw amount
  | .setStake ctx value => Account.setStake ctx value
  | .setHeight height => AccountM.change fun account => { account with height }
  | .normalize revision => Account.normalize revision
  | .moveDelegated delta => Account.moveDelegated delta
  | .setDelegations delegations => Account.setDelegations delegations

/-- Performs an operation: whether it was accepted, and the account it leaves behind. -/
def perform (account : Account) (operation : Operation) : Except LedgerError Unit × Account :=
  operation.change.run account

/-- The account that an operation leaves behind if it is accepted. -/
def apply (account : Account) (operation : Operation) : Except LedgerError Account :=
  match account.perform operation with
  | (.ok _, after) => .ok after
  | (.error error, _) => .error error

/-- The account that an operation leaves behind, accepted or not. -/
def step (account : Account) (operation : Operation) : Account :=
  (account.perform operation).2

/-- The account after a sequence of operations. -/
def run (account : Account) (operations : List Operation) : Account :=
  operations.foldl step account

end Account

end StakeLedger
