/-
**Why an operation on an account fails.**

Main definitions:

* `StakeLedger.ParameterFault` — parameters that an operation does not accept;
* `StakeLedger.LedgerError` — the causes, with their wording in `StakeLedger.LedgerError.message`.
-/
import StakeLedger.Codec.Error
import StakeLedger.Revision
import StakeLedger.Store

set_option autoImplicit false

namespace StakeLedger

/-- A parameter that an operation does not accept. -/
inductive ParameterFault
  | negativeBalance (balance : Int)
  | negativeDeposit (amount : Int)
  /-- The deposit takes the balance out of the range of amounts. -/
  | depositOverflow (amount : Int)
  | negativeWithdrawal (amount : Int)
  | negativeStake (stake : Int)
  | negativeStakePart (stake unstake : Int)
  | stakePartOverflow (stake unstake : Int)
  /-- A slot holds nothing, or a slot unlocks before the one in front of it. -/
  | invalidSlots
  /-- The stake and the slots together are out of the range of amounts. -/
  | slotsOverflow
  /-- No slot may be used where slots are. -/
  | noSlots
  /-- Balance, stake and pending unstake together are out of the range of amounts. -/
  | fundsOverflow
  | unlockHeightOverflow
  /-- A part with slots has no form at a revision that knows a single pending unstake. -/
  | slotsAtRevision (revision : Revision) (count : Nat)
  /-- The delegated amount would become negative or too large. -/
  | delegatedAmountMove (delegated delta : Int)
  | negativeDelegation (target : Address) (amount : Int)
  deriving DecidableEq, Repr

/-- The wording of a fault. -/
def ParameterFault.message : ParameterFault → String
  | .negativeBalance balance => s!"balance must not be negative: {balance}"
  | .negativeDeposit amount => s!"deposit amount must not be negative: {amount}"
  | .depositOverflow amount => s!"deposit of {amount} overflows balance"
  | .negativeWithdrawal amount => s!"withdraw amount must not be negative: {amount}"
  | .negativeStake stake => s!"stake must not be negative: {stake}"
  | .negativeStakePart stake unstake =>
      s!"stake part amounts must not be negative: stake={stake} unstake={unstake}"
  | .stakePartOverflow stake unstake =>
      s!"stake part total overflows: stake={stake} unstake={unstake}"
  | .invalidSlots => "unstake slots must be positive and ordered by unlock height"
  | .slotsOverflow => "stake plus unstake slots overflows"
  | .noSlots => "unstake slot maximum must be positive"
  | .fundsOverflow => "stake total overflows"
  | .unlockHeightOverflow => "unlock height overflows"
  | .slotsAtRevision revision count =>
      s!"revision {revision.text} cannot persist {count} unstake slots"
  | .delegatedAmountMove delegated delta =>
      s!"delegated amount {delegated} cannot move by {delta}"
  | .negativeDelegation target amount =>
      s!"delegation to {target.text} has negative amount {amount}"

/-- Why an operation on an account fails. -/
inductive LedgerError
  | invalidParameter (fault : ParameterFault)
  | outOfBalance (requested available : Int)
  | partNotLoaded (part : PartKind)
  | unsupportedVersion (part : PartKind) (version : Nat)
  | codec (error : CodecError)
  | storage (error : StoreError)
  deriving DecidableEq, Repr

/-- The wording of an error. -/
def LedgerError.message : LedgerError → String
  | .invalidParameter fault => s!"invalid parameter: {fault.message}"
  | .outOfBalance requested available =>
      s!"out of balance: requested {requested}, available {available}"
  | .partNotLoaded part => s!"{part.name} part is not loaded"
  | .unsupportedVersion part version => s!"unsupported {part.name} part version {version}"
  | .codec error => s!"codec error: {error.message}"
  | .storage error => s!"storage error: {error.message}"

end StakeLedger
