/-
**Digests.**

A digest is thirty-two bytes.  Digests of blocks, of transactions and of the calculator's state
never stand for each other, so what is digested is part of the type.

Main definitions:

* `StakeLedger.Digest` — digests of one subject;
* `StakeLedger.Digest.ofBytes?` — the digest that a byte string is, if it has the size of one.
-/
import StakeLedger.Hex

set_option autoImplicit false

namespace StakeLedger

/-- What a digest is taken of. -/
inductive Digest.Subject
  | block
  | transaction
  | state
  deriving DecidableEq, Repr

/-- How many bytes a digest has. -/
def Digest.size : Nat := 32

/-- A digest of a block, a transaction or a state. -/
structure Digest (subject : Digest.Subject) where
  bytes : Bytes
  size_bytes : bytes.length = Digest.size
  deriving DecidableEq, Repr

namespace Digest

variable {subject : Subject}

/-- The digest whose bytes are all zero. -/
def zero (subject : Subject) : Digest subject where
  bytes := List.replicate size 0
  size_bytes := List.length_replicate

/-- Whether all bytes are zero. -/
def isZero (digest : Digest subject) : Bool :=
  digest.bytes.all (· == 0)

/-- The digest with the given bytes, if they have its size. -/
def ofBytes? (bytes : Bytes) : Option (Digest subject) :=
  if size_bytes : bytes.length = size then some { bytes, size_bytes } else none

@[simp] theorem ofBytes?_bytes (digest : Digest subject) : ofBytes? digest.bytes = some digest := by
  simp [ofBytes?, digest.size_bytes]

theorem ofBytes?_eq_some_iff {bytes : Bytes} {digest : Digest subject} :
    ofBytes? bytes = some digest ↔ digest.bytes = bytes := by
  constructor
  · intro h
    unfold ofBytes? at h
    split at h
    · simp only [Option.some.injEq] at h
      rw [← h]
    · exact absurd h (by simp)
  · rintro rfl
    exact ofBytes?_bytes digest

/-- The digits of the digest after `0x`. -/
def text (digest : Digest subject) : String :=
  "0x" ++ Hex.encode digest.bytes

/-- The first four bytes with the name of the subject, for diagnostics; the abridged form of a
block digest ends in an ellipsis. -/
def labelled (digest : Digest subject) : String :=
  let abridged := Hex.encode (digest.bytes.take 4)
  match subject with
  | .block => s!"BlockHash({abridged}…)"
  | .transaction => s!"TxHash({abridged})"
  | .state => s!"StateHash({abridged})"

/-- Digests are ordered byte by byte. -/
instance : Ord (Digest subject) := ⟨fun a b => compare a.bytes b.bytes⟩

end Digest

end StakeLedger
