/-
**Protocol revisions.**

A revision only ever grows, and a change of behaviour starts at a revision of its own: stakes and
delegations, then decentralization, then several pending unstakes for one account.

Main definitions:

* `StakeLedger.Revision`, with the revisions at which behaviour changes;
* `StakeLedger.Revision.hasMultipleUnstake` — whether several unstakes may be pending.
-/
set_option autoImplicit false

namespace StakeLedger

/-- A protocol revision. -/
structure Revision where
  number : Nat
  deriving DecidableEq, Repr

namespace Revision

instance : LE Revision := ⟨fun a b => a.number ≤ b.number⟩

theorem le_iff {a b : Revision} : a ≤ b ↔ a.number ≤ b.number := Iff.rfl

instance (a b : Revision) : Decidable (a ≤ b) :=
  inferInstanceAs (Decidable (a.number ≤ b.number))

instance : Ord Revision := ⟨fun a b => compare a.number b.number⟩

/-- Stakes, unstakes and delegations start here. -/
def staking : Revision := ⟨5⟩

/-- Decentralization starts here. -/
def decentralization : Revision := ⟨6⟩

/-- From here on several unstakes may be pending for one account. -/
def multipleUnstake : Revision := ⟨9⟩

/-- Whether several unstakes may be pending for one account. -/
def hasMultipleUnstake (revision : Revision) : Bool :=
  decide (multipleUnstake ≤ revision)

/-- The written form of a revision. -/
def text (revision : Revision) : String := s!"rev{revision.number}"

theorem hasMultipleUnstake_iff (revision : Revision) :
    revision.hasMultipleUnstake = true ↔ 9 ≤ revision.number := by
  simp [hasMultipleUnstake, le_iff, multipleUnstake]

/-- What a revision knows is known ever after. -/
theorem hasMultipleUnstake_of_le {revision later : Revision}
    (h : revision.hasMultipleUnstake = true) (le : revision ≤ later) :
    later.hasMultipleUnstake = true := by
  rw [hasMultipleUnstake_iff] at h ⊢
  exact Nat.le_trans h le

end Revision

end StakeLedger
