/-
**The parts of an account and their keys.**

An account is stored in three independent parts.  The key of a part is the byte form of the address
behind letters for the part; the coin part stands directly under the address.

Main definitions:

* `StakeLedger.PartKind`, `StakeLedger.PartKey` — parts and the part of one account;
* `StakeLedger.PartKey.toBytes` — the key under which a part is stored.
-/
import StakeLedger.Address

set_option autoImplicit false

namespace StakeLedger

/-- A part of an account. -/
inductive PartKind
  /-- The spendable balance. -/
  | coin
  /-- The stake and what is pending of it. -/
  | stake
  /-- The delegations given and received. -/
  | delegation
  deriving DecidableEq, Repr

namespace PartKind

/-- The letters before the address in the key of a part. -/
def letters : PartKind → Bytes
  | .coin => []
  | .stake => [0x61, 0x53]
  | .delegation => [0x61, 0x44]

/-- The name of a part. -/
def name : PartKind → String
  | .coin => "coin"
  | .stake => "stake"
  | .delegation => "delegation"

end PartKind

/-- One part of one account. -/
structure PartKey where
  address : Address
  kind : PartKind
  deriving DecidableEq, Repr

/-- The key under which a part is stored. -/
def PartKey.toBytes (key : PartKey) : Bytes :=
  key.kind.letters ++ key.address.toBytes

end StakeLedger
