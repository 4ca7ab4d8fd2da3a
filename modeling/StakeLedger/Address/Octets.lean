/-
**The text form of an address, octet by octet.**

A text is kept in UTF-8 and cut by the number of its octets, which works out only between two of its
characters.  The letters of the kind are cut off as the first two octets, and the digits behind them
are told from one another as octets too, so that a wide character among them shows by its first
octet.

Main definitions:

* `StakeLedger.Bytes.isBoundary` — where a text can be cut;
* `StakeLedger.Bytes.front?`, `StakeLedger.Bytes.back?` — the text before and behind a cut;
* `StakeLedger.Hex.decodeOctets` — the byte string that the octets of a text spell;
* `StakeLedger.Address.ofOctets?` — the address that the octets of a text name.
-/
import StakeLedger.Address

set_option autoImplicit false

namespace StakeLedger

/-! ### Cutting a text -/

namespace Bytes

/-- A text can be cut at its two ends, and in front of every octet that does not continue a
character. -/
def isBoundary (octets : Bytes) (n : Nat) : Bool :=
  n == 0 || match octets[n]? with
    | some b => b.toNat < 0x80 || 0xc0 ≤ b.toNat
    | none => n == octets.length

/-- The first `n` octets of a text, unless that cuts a character. -/
def front? (octets : Bytes) (n : Nat) : Option Bytes :=
  if octets.isBoundary n then some (octets.take n) else none

/-- What is behind the first `n` octets of a text, unless that cuts a character. -/
def back? (octets : Bytes) (n : Nat) : Option Bytes :=
  if octets.isBoundary n then some (octets.drop n) else none

end Bytes

/-! ### Digits -/

namespace Hex

/-- The value of the digit that stands at `position`. -/
def octetValue (position : Nat) (b : UInt8) : Except Error Nat :=
  let n := b.toNat
  if 65 ≤ n ∧ n ≤ 70 then .ok (n - 65 + 10)
  else if 97 ≤ n ∧ n ≤ 102 then .ok (n - 97 + 10)
  else if 48 ≤ n ∧ n ≤ 57 then .ok (n - 48)
  else .error (.invalidCharacter b position)

/-- The bytes that the digits from `position` on spell, two digits a byte. -/
def octetPairs (position : Nat) : Bytes → Except Error Bytes
  | [] => .ok []
  | [_] => .error .oddLength
  | hi :: lo :: rest => do
      let h ← octetValue position hi
      let l ← octetValue (position + 1) lo
      let bytes ← octetPairs (position + 2) rest
      return UInt8.ofNat (16 * h + l) :: bytes

/-- The byte string that the octets of a text are the written form of. -/
def decodeOctets (octets : Bytes) : Except Error Bytes :=
  if octets.length % 2 = 1 then .error .oddLength else octetPairs 0 octets

end Hex

/-! ### Addresses -/

namespace Address

/-- The kind that two octets stand for. -/
def Kind.ofOctets? : Option Bytes → Option Kind
  | some [0x68, 0x78] => some .user
  | some [0x63, 0x78] => some .contract
  | _ => none

/-- The address of a kind with the body that the digits in `text` spell. -/
def ofBody (text : String) (kind : Kind) : Except Hex.Error Bytes → Except Fault Address
  | .error error => .error (.malformedDigits error)
  | .ok body =>
      if size_body : body.length = bodySize then .ok { kind, body, size_body }
      else .error (.malformedText text)

/-- The address that the octets of a text name; `none` if the digits cannot be cut off. -/
def ofOctets? (text : String) : Option (Except Fault Address) :=
  let octets := Bytes.ofText text
  match Kind.ofOctets? (octets.front? 2) with
  | none => some (.error (.malformedText text))
  | some kind => (octets.back? 2).map fun digits => ofBody text kind (Hex.decodeOctets digits)

end Address

end StakeLedger
