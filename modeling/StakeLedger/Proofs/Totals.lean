/-
**Which totals of a record are amounts.**

Records may come from anywhere, and each amount of a record may be the greatest one.  What is read as
a stake part has been summed up before: the stake and all that is pending together are an amount,
and so is every total that is formed of some of it.  What is read as a delegation part has not.  Its
entries are looked at one by one, so that every list of amounts is read, and the total of what the
account delegates is missing exactly where it is greater than any amount.

Main definitions:

* `StakeLedger.Amount.Formed` — a total that is formed;
* `StakeLedger.StakePart.TotalsFormed` — all totals of a stake part are formed.

Main results:

* `StakeLedger.StakePart.Recordable.totalsFormed` — the totals of a part that a record can hold;
* `StakeLedger.DelegationPart.InRange.formed_given`, `StakeLedger.DelegationPart.given?_eq_none` — when
  the total of a delegation part is formed;
* `StakeLedger.DelegationPart.exists_ofBytes_iff` — the delegation parts that are read;
* `StakeLedger.totals_of_ofBytes` — **the totals of what is read**;
* `StakeLedger.DelegationPart.given_overflows` — a record whose total is missing.
-/
import StakeLedger.Account.Totals
import StakeLedger.Proofs.Accepted

set_option autoImplicit false

namespace StakeLedger

/-! ### Sums of amounts that are not negative -/

namespace Amount

/-- The total is what is found, and an amount. -/
def Formed (found : Option Int) (total : Int) : Prop := found = some total ∧ InRange total

variable {start total : Int} {amounts : List Int}

/-- Amounts that are not negative are summed up if all of them together are an amount. -/
theorem formed_sum? (nonneg : 0 ≤ start) (amounts_nonneg : ∀ amount ∈ amounts, 0 ≤ amount)
    (in_range : start + amounts.foldr (· + ·) 0 ≤ greatest) :
    Formed (sum? start amounts) (start + amounts.foldr (· + ·) 0) := by
  have hrest := foldr_add_nonneg amounts_nonneg
  have hstart : InRange start := ⟨Int.le_trans (by decide) nonneg, by omega⟩
  obtain ⟨found, hfound⟩ :=
    Option.isSome_iff_exists.1 (isSome_sum? nonneg amounts_nonneg in_range)
  obtain ⟨rfl, hrange⟩ := eq_of_sum?_eq_some hstart hfound
  exact ⟨hfound, hrange⟩

/-- Where all of them together are no amount, the sum is missing. -/
theorem sum?_eq_none (start_inRange : InRange start)
    (exceeds : greatest < start + amounts.foldr (· + ·) 0) : sum? start amounts = none := by
  refine Option.eq_none_iff_forall_ne_some.2 fun found hfound => ?_
  obtain ⟨rfl, hrange⟩ := eq_of_sum?_eq_some start_inRange hfound
  exact absurd hrange.2 (Int.not_le.2 exceeds)

theorem formed_add? {a b : Int} (nonneg : 0 ≤ a + b) (in_range : a + b ≤ greatest) :
    Formed (add? a b) (a + b) := by
  have hrange : InRange (a + b) := ⟨Int.le_trans (by decide) nonneg, in_range⟩
  exact ⟨add?_eq_some_iff.2 ⟨rfl, hrange⟩, hrange⟩

/-- A sum with a total that is formed. -/
theorem Formed.add? {found : Option Int} (h : Formed found total) {a : Int} (nonneg : 0 ≤ a + total)
    (in_range : a + total ≤ greatest) :
    Formed (do Amount.add? a (← found)) (a + total) := by
  rw [h.1]
  exact formed_add? nonneg in_range

end Amount

/-! ### Stake parts -/

theorem Slot.Valid.formed_total {slots : List Slot} (h : Slot.Valid slots)
    (in_range : Slot.total slots ≤ Amount.greatest) :
    Amount.Formed (Slot.total? slots) (Slot.total slots) := by
  have htotal : 0 + (slots.map Slot.amount).foldr (· + ·) 0 = Slot.total slots := by
    rw [Int.zero_add]
    exact List.foldr_map
  rw [← htotal] at in_range ⊢
  refine Amount.formed_sum? (Int.le_refl 0) ?_ in_range
  intro amount hamount
  obtain ⟨slot, hslot, rfl⟩ := List.mem_map.1 hamount
  exact Int.le_of_lt (h.1 slot hslot)

namespace StakePart

/-- All totals that are formed of a stake part are amounts, and so are the sums on the way there. -/
structure TotalsFormed (part : StakePart) : Prop where
  slots : Amount.Formed (Slot.total? part.slots) (Slot.total part.slots)
  pending : Amount.Formed part.pending? part.pending
  totalStake : Amount.Formed part.totalStake? (part.stake + part.pending)
  counted : ∀ policy, Amount.Formed (UnstakePolicy.pending? policy part) (policy.pending part)
  matured : ∀ policy height,
    Amount.Formed (UnstakePolicy.matured? policy part height) (policy.matured part height)

variable {part : StakePart}

/-- Nothing that a policy counts as unlocked is more than what is pending. -/
theorem Sound.formed_matured (h : part.Sound) (in_range : part.pending ≤ Amount.greatest)
    (policy : UnstakePolicy) (height : Nat) :
    Amount.Formed (policy.matured? part height) (policy.matured part height) := by
  have hnonneg := UnstakePolicy.matured_nonneg h policy height
  have hle := UnstakePolicy.matured_le_pending h policy height
  cases policy with
  | single => exact ⟨rfl, Int.le_trans (by decide) hnonneg, by omega⟩
  | slots =>
      have hunstake := h.unstake_nonneg
      have hvalid := h.slots_valid.filter (Slot.matured height)
      refine Amount.Formed.add? (hvalid.formed_total ?_) hnonneg
        (Int.le_trans hle in_range)
      -- the slots alone hold no more than with what is adopted
      change (if _ then _ else _) + Slot.total _ ≤ _ at hle
      split at hle <;> omega

/-- **Every total of a part that a record can hold is formed.** -/
theorem Recordable.totalsFormed (h : part.Recordable) : part.TotalsFormed := by
  have hstake := h.stake_nonneg
  have hunstake := h.unstake_nonneg
  have hslots := h.slots_valid.total_nonneg
  have hpending : part.pending = part.unstake + Slot.total part.slots := rfl
  have hrange := h.in_range
  have htotal := h.slots_valid.formed_total (by omega)
  have hformed : Amount.Formed part.pending? part.pending := htotal.add? (by omega) (by omega)
  exact
    { slots := htotal
      pending := hformed
      totalStake := hformed.add? (by omega) hrange
      counted := fun
        | .single => ⟨rfl, h.unstake_inRange⟩
        | .slots => hformed
      matured := h.toSound.formed_matured (by omega) }

end StakePart

/-! ### Delegation parts -/

namespace DelegationPart

variable {part : DelegationPart}

theorem foldr_amounts (part : DelegationPart) :
    0 + (part.delegations.map Delegation.amount).foldr (· + ·) 0 = part.given := by
  rw [Int.zero_add]
  exact List.foldr_map

/-- What an account delegates is summed up if it is an amount. -/
theorem InRange.formed_given (h : part.InRange) (in_range : part.given ≤ Amount.greatest) :
    Amount.Formed part.given? part.given := by
  rw [← foldr_amounts] at in_range ⊢
  refine Amount.formed_sum? (Int.le_refl 0) ?_ in_range
  intro amount hamount
  obtain ⟨d, hd, rfl⟩ := List.mem_map.1 hamount
  exact h.amount_nonneg d hd

theorem given?_eq_none (exceeds : Amount.greatest < part.given) : part.given? = none := by
  rw [← foldr_amounts] at exceeds
  exact Amount.sum?_eq_none (by decide) exceeds

/-- **What is read is what a record can hold**, whatever it sums up to. -/
theorem exists_ofBytes_iff : (∃ bytes, ofBytes bytes = .ok part) ↔ part.Recordable :=
  ⟨fun ⟨_, h⟩ => recordable_of_ofBytes h, fun h => ⟨part.toBytes, h.ofBytes_toBytes⟩⟩

end DelegationPart

/-! ### What is read -/

/-- **The totals of what is read.**  Of a stake part all of them are amounts, at every height and for
both policies.  Of a delegation part the total is one or is missing; and a delegation part is read
from some record whenever each of its amounts is one that is not negative, so that it may be
missing. -/
theorem totals_of_ofBytes (bytes : Bytes) (delegation : DelegationPart) :
    (∀ part, StakePart.ofBytes bytes = .ok part → part.TotalsFormed) ∧
    (DelegationPart.ofBytes bytes = .ok delegation →
      (delegation.given ≤ Amount.greatest →
        Amount.Formed delegation.given? delegation.given) ∧
      (Amount.greatest < delegation.given → delegation.given? = none)) ∧
    ((∃ record, DelegationPart.ofBytes record = .ok delegation) ↔ delegation.Recordable) :=
  ⟨fun _ h => (StakePart.recordable_of_ofBytes h).totalsFormed,
    fun h => ⟨(DelegationPart.inRange_of_ofBytes h).formed_given, DelegationPart.given?_eq_none⟩,
    DelegationPart.exists_ofBytes_iff⟩

/-- A record with a stake of 10 and a slot of 5 that unlocks at height 7. -/
def slotRecord : Bytes := [0x93, 0x01, 0x0a, 0x91, 0x92, 0x05, 0x07]

/-- A part that delegates 5 and 6 to one target. -/
def DelegationPart.modest : DelegationPart where
  delegated := 7
  delegations := [⟨Account.small.address, 5⟩, ⟨Account.small.address, 6⟩]

/-- A part that delegates the greatest amount to one target, twice. -/
def DelegationPart.overdrawn : DelegationPart where
  delegated := 0
  delegations := [⟨Account.small.address, Amount.greatest⟩, ⟨Account.small.address, Amount.greatest⟩]

theorem DelegationPart.modest_recordable : modest.Recordable :=
  ⟨⟨by decide, by decide, by decide, by decide⟩, by decide⟩

theorem DelegationPart.overdrawn_recordable : overdrawn.Recordable :=
  ⟨⟨by decide, by decide, by decide, by decide⟩, by decide⟩

theorem totals_of_ofBytes_modest :
    (∃ part, StakePart.ofBytes slotRecord = .ok part ∧ part.totalStake? = some 15 ∧
      UnstakePolicy.slots.matured? part 7 = some 5) ∧
    DelegationPart.ofBytes DelegationPart.modest.toBytes = .ok .modest ∧
      DelegationPart.modest.given? = some 11 := by
  have hmodest := DelegationPart.modest_recordable.ofBytes_toBytes
  have hformed := (totals_of_ofBytes slotRecord .modest).1 _ rfl
  have hgiven := ((totals_of_ofBytes _ _).2.1 hmodest).1 (by decide)
  exact ⟨⟨_, rfl, hformed.totalStake.1, (hformed.matured .slots 7).1⟩, hmodest, hgiven.1⟩

/-- **A record that is read and whose total is missing.** -/
theorem DelegationPart.given_overflows :
    ofBytes overdrawn.toBytes = .ok overdrawn ∧ Amount.greatest < overdrawn.given ∧
      overdrawn.given? = none :=
  ⟨overdrawn_recordable.ofBytes_toBytes, by decide, by decide⟩

end StakeLedger
