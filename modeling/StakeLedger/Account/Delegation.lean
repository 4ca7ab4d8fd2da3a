/-
**The delegation part of an account.**

The delegation part holds what others delegated to the account and the delegations that the account
gives, in their order; a list may name a target several times.  Its record is
`[0, delegated, [[target, amount], …]]`.

When an account replaces its delegations, the delegated amount of every target changes by the
difference between what the new list and the old one give it.

Main definitions:

* `StakeLedger.DelegationPart` — the part;
* `StakeLedger.DelegationPart.moveDelegated`, `StakeLedger.DelegationPart.setDelegations` — changes;
* `StakeLedger.DelegationPart.toBytes`, `StakeLedger.DelegationPart.ofBytes` — the record;
* `StakeLedger.delegationOffsets` — what a replacement changes for each target.
-/
import StakeLedger.Account.Coin

set_option autoImplicit false

namespace StakeLedger

open MsgPack (Value)

/-- An amount delegated to a target. -/
structure Delegation where
  target : Address
  amount : Int
  deriving DecidableEq, Repr

/-- The delegations that an account receives and gives. -/
structure DelegationPart where
  /-- What others delegated to the account. -/
  delegated : Int
  /-- What the account delegates. -/
  delegations : List Delegation
  deriving DecidableEq, Repr

namespace DelegationPart

/-- A part without delegations. -/
def empty : DelegationPart := { delegated := 0, delegations := [] }

instance : Inhabited DelegationPart := ⟨empty⟩

/-- What the account delegates in all. -/
def given (part : DelegationPart) : Int :=
  part.delegations.foldr (fun d sum => d.amount + sum) 0

/-- Changes what others delegated to the account by `delta`. -/
def moveDelegated (part : DelegationPart) (delta : Int) : Except LedgerError DelegationPart :=
  let refused := .error (.invalidParameter (.delegatedAmountMove part.delegated delta))
  match Amount.add? part.delegated delta with
  | none => refused
  | some delegated => if delegated < 0 then refused else .ok { part with delegated }

/-- Replaces what the account delegates. -/
def setDelegations (part : DelegationPart) (delegations : List Delegation) :
    Except LedgerError DelegationPart :=
  match delegations.find? fun d => decide (d.amount < 0) with
  | some d => .error (.invalidParameter (.negativeDelegation d.target d.amount))
  | none => .ok { part with delegations }

/-! ### The record -/

/-- The version of the record. -/
def version : Nat := 0

/-- The entry of a delegation in a record. -/
def entryValue (d : Delegation) : Value :=
  .array [Field.address d.target, Field.amount d.amount]

/-- The record of the part. -/
def toValue (part : DelegationPart) : Value :=
  .array [.ofNat version, Field.amount part.delegated,
    .array (part.delegations.map entryValue)]

/-- The delegation that an entry describes. -/
def readEntry (entry : Value) : Except CodecError Delegation := do
  match ← Field.readArray "fields" entry with
  | [target, amount] =>
      let target ← Field.readAddress "delegation_address" target
      let amount ← Field.readAmount "delegation_amount" amount
      if amount < 0 then throw (.outOfRange "delegation_amount")
      return { target, amount }
  | fields => throw (.arity 2 fields.length)

/-- The part that the fields after the version describe. -/
def ofFields (delegated entries : Value) : Except CodecError DelegationPart := do
  let delegated ← Field.readAmount "delegated_amount" delegated
  if delegated < 0 then throw (.outOfRange "delegated_amount")
  let delegations ← (← Field.readArray "delegations" entries).mapM readEntry
  return { delegated, delegations }

/-- The part that a record describes. -/
def ofValue (value : Value) : Except LedgerError DelegationPart := do
  match ← (Field.readArray "fields" value).mapError .codec with
  | [first, delegated, entries] =>
      let found ← readVersion first
      if found ≠ version then throw (.unsupportedVersion .delegation found)
      (ofFields delegated entries).mapError .codec
  | fields => throw (.codec (.arity 3 fields.length))

/-- The stored form of the part. -/
def toBytes (part : DelegationPart) : Bytes := part.toValue.encode

/-- The part with the given stored form. -/
def ofBytes (bytes : Bytes) : Except LedgerError DelegationPart := do
  ofValue (← (decodeValue bytes).mapError .codec)

end DelegationPart

/-! ### Replacing delegations -/

/-- Adds `delta` to the offset of `target`, which joins the end if it is new. -/
def addOffset (target : Address) (delta : Int) : List (Address × Int) → List (Address × Int)
  | [] => [(target, delta)]
  | (a, offset) :: rest =>
      if a = target then (a, offset + delta) :: rest
      else (a, offset) :: addOffset target delta rest

/-- What replacing `old` by `new` changes for each target, in the order in which the targets first
appear, the old ones first; targets for which nothing changes are left out. -/
def delegationOffsets (old new : List Delegation) : List (Address × Int) :=
  let moves := old.map (fun d => (d.target, -d.amount)) ++ new.map fun d => (d.target, d.amount)
  let offsets := moves.foldl (fun offsets move => addOffset move.1 move.2 offsets) []
  offsets.filter fun offset => decide (offset.2 ≠ 0)

end StakeLedger
