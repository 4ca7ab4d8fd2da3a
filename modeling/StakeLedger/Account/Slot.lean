/-
**Pending unstakes in order of unlocking.**

A slot is an amount that becomes spendable at a block height.  Slots are kept in the order of their
heights; a new slot goes behind those of the same height, and amounts are taken back from the front.

Main definitions:

* `StakeLedger.Slot` — one pending unstake;
* `StakeLedger.Slot.total` — the amount that a list of slots holds;
* `StakeLedger.Slot.Ordered`, `StakeLedger.Slot.Valid` — what holds of the slots of an account;
* `StakeLedger.Slot.insert`, `StakeLedger.Slot.drain`, `StakeLedger.Slot.raiseLast`,
  `StakeLedger.Slot.takeMatured` — what happens to them.

Main results:

* `StakeLedger.Slot.total_insert`, `StakeLedger.Slot.total_drain` — the totals after each;
* `StakeLedger.Slot.takeMatured_eq` — what is taken out is what is unlocked.
-/
set_option autoImplicit false

namespace StakeLedger

/-- The greatest block height. -/
def maxHeight : Nat := 0xffffffffffffffff

/-- One pending unstake. -/
structure Slot where
  /-- What becomes spendable. -/
  amount : Int
  /-- The block height from which on it is. -/
  unlockHeight : Nat
  deriving DecidableEq, Repr

namespace Slot

/-- The amount that slots hold together. -/
def total (slots : List Slot) : Int :=
  slots.foldr (fun slot sum => slot.amount + sum) 0

/-- Slots whose heights never fall. -/
def Ordered (slots : List Slot) : Prop :=
  slots.Pairwise fun a b => a.unlockHeight ≤ b.unlockHeight

instance (slots : List Slot) : Decidable (Ordered slots) :=
  inferInstanceAs (Decidable (slots.Pairwise _))

/-- Ordered slots, each of which holds something. -/
def Valid (slots : List Slot) : Prop :=
  (∀ slot ∈ slots, 0 < slot.amount) ∧ Ordered slots

instance (slots : List Slot) : Decidable (Valid slots) := inferInstanceAs (Decidable (_ ∧ _))

/-- Whether a slot is unlocked at a height. -/
def matured (height : Nat) (slot : Slot) : Bool := decide (slot.unlockHeight ≤ height)

/-- Puts a slot behind all that unlock no later. -/
def insert (slot : Slot) : List Slot → List Slot
  | [] => [slot]
  | first :: rest =>
      if first.unlockHeight ≤ slot.unlockHeight then first :: insert slot rest
      else slot :: first :: rest

/-- Takes up to `amount` from the front; a slot that is used up disappears. -/
def drain (amount : Int) : List Slot → List Slot
  | [] => []
  | first :: rest =>
      if amount ≤ 0 then first :: rest
      else if first.amount ≤ amount then drain (amount - first.amount) rest
      else { first with amount := first.amount - amount } :: rest

/-- Adds to the last slot, which then unlocks no earlier than `unlockHeight`. -/
def raiseLast (amount : Int) (unlockHeight : Nat) : List Slot → List Slot
  | [] => []
  | [last] =>
      [{ amount := last.amount + amount, unlockHeight := max last.unlockHeight unlockHeight }]
  | first :: rest => first :: raiseLast amount unlockHeight rest

/-- Takes out the slots that are unlocked at a height: what they held together, and the others. -/
def takeMatured (height : Nat) : List Slot → Int × List Slot
  | [] => (0, [])
  | first :: rest =>
      let (taken, kept) := takeMatured height rest
      if first.matured height then (first.amount + taken, kept) else (taken, first :: kept)

@[simp] theorem total_nil : total [] = 0 := rfl

@[simp] theorem total_cons (slot : Slot) (slots : List Slot) :
    total (slot :: slots) = slot.amount + total slots := rfl

@[simp] theorem total_insert (slot : Slot) (slots : List Slot) :
    total (insert slot slots) = slot.amount + total slots := by
  induction slots with
  | nil => rfl
  | cons first rest ih =>
      rw [insert]
      split
      · rw [total_cons, ih, total_cons]
        omega
      · rfl

/-- Draining takes what it is asked to, as far as the slots reach. -/
theorem total_drain {amount : Int} {slots : List Slot} (pos : 0 ≤ amount)
    (enough : amount ≤ total slots) : total (drain amount slots) = total slots - amount := by
  induction slots generalizing amount with
  | nil =>
      simp only [total_nil] at enough
      simp only [drain, total_nil]
      omega
  | cons first rest ih =>
      rw [total_cons] at enough
      rw [drain]
      split
      · rw [total_cons]
        omega
      · split
        · rw [ih (by omega) (by omega), total_cons]
          omega
        · simp only [total_cons]
          omega

theorem takeMatured_eq (height : Nat) (slots : List Slot) :
    takeMatured height slots =
      (total (slots.filter (matured height)), slots.filter fun slot => !slot.matured height) := by
  induction slots with
  | nil => rfl
  | cons first rest ih =>
      rw [takeMatured, ih]
      cases hmatured : first.matured height with
      | true =>
          rw [List.filter_cons_of_pos hmatured, List.filter_cons_of_neg (by simp [hmatured])]
          rfl
      | false =>
          rw [List.filter_cons_of_neg (by simp [hmatured]),
            List.filter_cons_of_pos (by simp [hmatured])]
          rfl

end Slot

end StakeLedger
