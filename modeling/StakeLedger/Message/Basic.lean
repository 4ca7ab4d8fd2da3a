/-
**Messages and requests.**

The node sends requests; the calculator answers each by the message of the same kind and number and
sends notifications of its own.

Main definitions:

* `StakeLedger.Message` — what the calculator sends;
* `StakeLedger.Request` — what the node sends.
-/
import StakeLedger.Address
import StakeLedger.Digest
import StakeLedger.Message.Kind

set_option autoImplicit false

namespace StakeLedger

/-! ### Messages -/

/-- The contents of a message from the calculator. -/
inductive Message.Body
  /-- The version of the calculator and the last block that it has committed. -/
  | version (version height : Nat)
  /-- What `address` claims in a transaction. -/
  | claim (address : Address) (height : Nat) (blockHash : Digest .block) (txIndex : Nat)
      (txHash : Digest .transaction) (iscore : Int)
  | query (address : Address) (iscore : Int) (height : Nat)
  /-- A calculation was accepted; its result follows in `calculateDone`. -/
  | calculate (status height : Nat)
  | commitBlock (success : Bool) (height : Nat) (blockHash : Digest .block)
  | commitClaim
  | queryCalculateStatus (status height : Nat)
  | queryCalculateResult (status height : Nat) (iscore : Int) (stateHash : Digest .state)
  | rollback (success : Bool) (height : Nat) (blockHash : Digest .block)
  | init (success : Bool) (height : Nat)
  /-- The calculator has started. -/
  | ready (version height : Nat) (blockHash : Digest .block)
  /-- A calculation has finished. -/
  | calculateDone (success : Bool) (height : Nat) (iscore : Int) (stateHash : Digest .state)
  deriving DecidableEq, Repr

/-- A message from the calculator; an answer has the number of its request. -/
structure Message where
  id : Nat
  body : Message.Body
  deriving DecidableEq, Repr

/-- The kind of the contents. -/
def Message.Body.kind : Message.Body → MessageKind
  | .version .. => .version
  | .claim .. => .claim
  | .query .. => .query
  | .calculate .. => .calculate
  | .commitBlock .. => .commitBlock
  | .commitClaim => .commitClaim
  | .queryCalculateStatus .. => .queryCalculateStatus
  | .queryCalculateResult .. => .queryCalculateResult
  | .rollback .. => .rollback
  | .init .. => .init
  | .ready .. => .ready
  | .calculateDone .. => .calculateDone

/-! ### Requests -/

/-- The contents of a request from the node. -/
inductive Request.Body
  | version
  | claim (address : Address) (height : Nat) (blockHash : Digest .block) (txIndex : Nat)
      (txHash : Digest .transaction)
  | query (address : Address)
  /-- Asks to process the data at `path` up to a block height. -/
  | calculate (path : String) (height : Nat)
  | commitBlock (success : Bool) (height : Nat) (blockHash : Digest .block)
  /-- Confirms or cancels an earlier claim. -/
  | commitClaim (success : Bool) (address : Address) (height : Nat) (blockHash : Digest .block)
      (txIndex : Nat) (txHash : Digest .transaction)
  | queryCalculateStatus
  | queryCalculateResult (height : Nat)
  | rollback (height : Nat) (blockHash : Digest .block)
  | init (height : Nat)
  deriving DecidableEq, Repr

/-- A request from the node. -/
structure Request where
  id : Nat
  body : Request.Body
  deriving DecidableEq, Repr

/-- The kind of the contents. -/
def Request.Body.kind : Request.Body → MessageKind
  | .version => .version
  | .claim .. => .claim
  | .query .. => .query
  | .calculate .. => .calculate
  | .commitBlock .. => .commitBlock
  | .commitClaim .. => .commitClaim
  | .queryCalculateStatus => .queryCalculateStatus
  | .queryCalculateResult .. => .queryCalculateResult
  | .rollback .. => .rollback
  | .init .. => .init

end StakeLedger
