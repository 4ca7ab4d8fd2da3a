/-
**The coin part of an account.**

The coin part holds the spendable balance, the role of the account and eight flags.  Its record is
`[0, role, flags, balance]`.

Main definitions:

* `StakeLedger.CoinPart` — the part;
* `StakeLedger.CoinPart.deposit`, `StakeLedger.CoinPart.withdraw` — moving amounts;
* `StakeLedger.CoinPart.toBytes`, `StakeLedger.CoinPart.ofBytes` — the record.
-/
import StakeLedger.Account.Error
import StakeLedger.Codec.Field

set_option autoImplicit false

namespace StakeLedger

open MsgPack (Value)

/-- The version field at the front of a record. -/
def readVersion (version : Value) : Except LedgerError Nat :=
  (Field.readNat "version" version).mapError .codec

/-- What an account is for. -/
inductive CoinPart.Role
  | general
  | genesis
  | treasury
  deriving DecidableEq, Repr

namespace CoinPart.Role

/-- The number that stands for a role. -/
def code : Role → UInt8
  | .general => 0
  | .genesis => 1
  | .treasury => 2

/-- The role that a number stands for. -/
def ofCode? (code : UInt8) : Option Role :=
  if code = 0 then some .general
  else if code = 1 then some .genesis
  else if code = 2 then some .treasury
  else none

@[simp] theorem ofCode?_code (role : Role) : ofCode? role.code = some role := by
  cases role <;> rfl

end CoinPart.Role

/-- The spendable balance of an account. -/
structure CoinPart where
  role : CoinPart.Role
  /-- Eight flags, one for each bit. -/
  flags : UInt8
  balance : Int
  deriving DecidableEq, Repr

namespace CoinPart

/-- An empty part of a general account. -/
def empty : CoinPart := { role := .general, flags := 0, balance := 0 }

instance : Inhabited CoinPart := ⟨empty⟩

/-- A part of a general account that holds `balance`. -/
def ofBalance (balance : Int) : Except LedgerError CoinPart :=
  if balance < 0 then .error (.invalidParameter (.negativeBalance balance))
  else .ok { empty with balance }

/-- An empty part of an account with the given role. -/
def ofRole (role : Role) : CoinPart := { empty with role }

/-! ### Flags -/

/-- The flag that says that an unstake is pending. -/
def hasUnstakeFlag : UInt8 := 1

/-- Whether all bits of `flag` are set. -/
def hasFlag (part : CoinPart) (flag : UInt8) : Bool :=
  part.flags &&& flag == flag

/-- Sets or clears the bits of `flag`. -/
def setFlag (part : CoinPart) (flag : UInt8) (on : Bool) : CoinPart :=
  { part with flags := if on then part.flags ||| flag else part.flags &&& ~~~flag }

/-! ### Moving amounts -/

/-- Adds `amount` to the balance. -/
def deposit (part : CoinPart) (amount : Int) : Except LedgerError CoinPart :=
  if amount < 0 then .error (.invalidParameter (.negativeDeposit amount))
  else match Amount.add? part.balance amount with
    | none => .error (.invalidParameter (.depositOverflow amount))
    | some balance => .ok { part with balance }

/-- Takes `amount` out of the balance. -/
def withdraw (part : CoinPart) (amount : Int) : Except LedgerError CoinPart :=
  if amount < 0 then .error (.invalidParameter (.negativeWithdrawal amount))
  else if part.balance < amount then .error (.outOfBalance amount part.balance)
  else .ok { part with balance := part.balance - amount }

/-- A deposit that is not negative goes as far as the range of amounts. -/
theorem deposit_of_nonneg {amount : Int} (nonneg : ¬ amount < 0) (part : CoinPart) :
    part.deposit amount =
      if Amount.InRange (part.balance + amount) then
        .ok { part with balance := part.balance + amount }
      else .error (.invalidParameter (.depositOverflow amount)) := by
  rw [deposit, if_neg nonneg, Amount.add?]
  by_cases hfits : Amount.InRange (part.balance + amount)
  · rw [if_pos hfits, if_pos hfits]
  · rw [if_neg hfits, if_neg hfits]

/-- A withdrawal that is not negative goes as far as the balance. -/
theorem withdraw_of_nonneg {amount : Int} (nonneg : ¬ amount < 0) (part : CoinPart) :
    part.withdraw amount =
      if part.balance < amount then .error (.outOfBalance amount part.balance)
      else .ok { part with balance := part.balance - amount } := by
  rw [withdraw, if_neg nonneg]

/-! ### The record -/

/-- The version of the record. -/
def version : Nat := 0

/-- The record of the part. -/
def toValue (part : CoinPart) : Value :=
  .array [.ofNat version, .ofNat part.role.code.toNat, .ofNat part.flags.toNat,
    Field.amount part.balance]

/-- The part that the fields after the version describe. -/
def ofFields (role flags balance : Value) : Except CodecError CoinPart := do
  let code ← Field.readByte "part_type" role
  let some role := Role.ofCode? code | throw (.outOfRange "part_type")
  let flags ← Field.readByte "flags" flags
  let balance ← Field.readAmount "balance" balance
  if balance < 0 then throw (.outOfRange "balance")
  return { role, flags, balance }

/-- The part that a record describes. -/
def ofValue (value : Value) : Except LedgerError CoinPart := do
  match ← (Field.readArray "coin_part" value).mapError .codec with
  | [first, role, flags, balance] =>
      let found ← readVersion first
      if found ≠ version then throw (.unsupportedVersion .coin found)
      (ofFields role flags balance).mapError .codec
  | fields => throw (.codec (.arity 4 fields.length))

/-- The stored form of the part. -/
def toBytes (part : CoinPart) : Bytes := part.toValue.encode

/-- The part with the given stored form. -/
def ofBytes (bytes : Bytes) : Except LedgerError CoinPart := do
  ofValue (← (decodeValue bytes).mapError .codec)

end CoinPart

end StakeLedger
