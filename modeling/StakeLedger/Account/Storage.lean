/-
**Loading and saving accounts.**

Loading reads the wanted parts, takes a fresh part where none is stored, and releases what is
unlocked; the stake part never comes without the coin part, into which it is released.  Saving forms
the records of all loaded parts before it stores the first one.

Main definitions:

* `StakeLedger.StoreM` — computations on the store;
* `StakeLedger.Account.load` — an account from the store;
* `StakeLedger.Account.records`, `StakeLedger.Account.save` — an account into the store.
-/
import StakeLedger.Account.Basic

set_option autoImplicit false

namespace StakeLedger

/-- A computation on the store that may fail and keeps what was done before it did. -/
abbrev StoreM := ExceptT LedgerError (StateM Store)

namespace StoreM

/-- A result that does not depend on the store. -/
def ofExcept {α : Type} (result : Except LedgerError α) : StoreM α :=
  fun store => (result, store)

/-- The stored value of a part. -/
def get (key : PartKey) : StoreM (Option Bytes) := fun store =>
  let (result, store) := store.get key
  (result.mapError .storage, store)

/-- Stores a value for a part. -/
def put (key : PartKey) (value : Bytes) : StoreM Unit := fun store =>
  let (result, store) := store.put key value
  (result.mapError .storage, store)

end StoreM

namespace Account

/-! ### Loading -/

/-- The stored part under `key`, or `fresh` if none is stored. -/
def loadPart {α : Type} (key : PartKey) (ofBytes : Bytes → Except LedgerError α) (fresh : α) :
    StoreM α := do
  match ← StoreM.get key with
  | some bytes => StoreM.ofExcept (ofBytes bytes)
  | none => return fresh

/-- The part under `key` if it is wanted. -/
def loadWanted {α : Type} (wanted : Bool) (key : PartKey)
    (ofBytes : Bytes → Except LedgerError α) (fresh : α) : StoreM (Option α) :=
  if wanted then some <$> loadPart key ofBytes fresh else return none

/-- The account of `address` with the wanted parts, in which all that is unlocked at `height` has
been released. -/
def load (address : Address) (wanted : List PartKind) (height : Nat) (revision : Revision) :
    StoreM Account := do
  -- what is released from the stake part has to go somewhere
  let wantsStake := wanted.contains .stake
  let wantsCoin := wanted.contains .coin || wantsStake
  let coin ← loadWanted wantsCoin ⟨address, .coin⟩ CoinPart.ofBytes .empty
  let stake ← loadWanted wantsStake ⟨address, .stake⟩ StakePart.ofBytes .empty
  let delegation ←
    loadWanted (wanted.contains .delegation) ⟨address, .delegation⟩ DelegationPart.ofBytes .empty
  let account : Account := { address, height, revision, coin, stake, delegation }
  StoreM.ofExcept (account.apply (.normalize revision))

/-! ### Saving -/

/-- The records of the loaded parts. -/
def records (account : Account) : Except LedgerError (List (PartKind × Bytes)) := do
  let coin := account.coin.toList.map fun part => (PartKind.coin, part.toBytes)
  let stake ← account.stake.toList.mapM fun part =>
    (part.toBytes account.revision).map fun bytes => (PartKind.stake, bytes)
  let delegation := account.delegation.toList.map fun part => (PartKind.delegation, part.toBytes)
  return coin ++ stake ++ delegation

/-- Stores records one after the other, up to the first that the store refuses. -/
def putRecords (address : Address) : List (PartKind × Bytes) → StoreM Unit
  | [] => return ()
  | (kind, record) :: rest => do
      StoreM.put ⟨address, kind⟩ record
      putRecords address rest

/-- Stores the records of the loaded parts. -/
def save (account : Account) : StoreM Unit := do
  let records ← StoreM.ofExcept account.records
  putRecords account.address records

end Account

end StakeLedger
