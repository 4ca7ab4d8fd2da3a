/-
**Where the parts of an account come from.**

A part is made by a constructor or read from a record; nothing else makes one.  Both check what they
are given, and so every part that is made has amounts of the right signs, valid slots, a sum in the
range of amounts and pending unstakes in one shape only.

Main definitions:

* `StakeLedger.CoinPart.Made`, `StakeLedger.StakePart.Made` — the parts that are made;
* `StakeLedger.StakePart.WellFormed` — what holds of a stake part that is made;
* `StakeLedger.Account.Made` — accounts whose parts are made.

Main results:

* `StakeLedger.CoinPart.Made.balance_nonneg`, `StakeLedger.StakePart.Made.wellFormed` — what the
  constructors and the readers guarantee.
-/
import StakeLedger.Account.Basic
import StakeLedger.Proofs.Pending
import StakeLedger.Proofs.Results

set_option autoImplicit false

namespace StakeLedger

open Results
open MsgPack (Value)

/-! ### Sums in the range -/

/-- A sum that is found on top of an amount is the sum, and an amount. -/
theorem Amount.eq_of_sum?_eq_some {start total : Int} {amounts : List Int}
    (hstart : Amount.InRange start) (h : Amount.sum? start amounts = some total) :
    total = start + amounts.foldr (· + ·) 0 ∧ Amount.InRange total := by
  induction amounts generalizing start with
  | nil =>
      cases h
      exact ⟨by simp, hstart⟩
  | cons first rest ih =>
      rw [Amount.sum?, List.foldlM_cons] at h
      obtain ⟨next, hnext, hrest⟩ := Option.bind_eq_some_iff.1 h
      obtain ⟨rfl, hfits⟩ := Amount.add?_eq_some_iff.1 hnext
      obtain ⟨htotal, hrange⟩ := ih hfits hrest
      refine ⟨?_, hrange⟩
      rw [htotal, List.foldr_cons]
      omega

/-- Amounts that fit have their sum in the range. -/
theorem StakePart.sum_le_of_amountsFit {stake unstake : Int} {slots : List Slot}
    (h : StakePart.amountsFit stake unstake slots = true) :
    stake + unstake + Slot.total slots ≤ Amount.greatest := by
  obtain ⟨total, htotal⟩ := Option.isSome_iff_exists.1 h
  rw [Amount.sum?, List.foldlM_cons] at htotal
  obtain ⟨next, hnext, hrest⟩ := Option.bind_eq_some_iff.1 htotal
  obtain ⟨rfl, hfits⟩ := Amount.add?_eq_some_iff.1 hnext
  obtain ⟨hsum, hrange⟩ := Amount.eq_of_sum?_eq_some hfits hrest
  have hslots : (slots.map Slot.amount).foldr (· + ·) 0 = Slot.total slots := List.foldr_map
  rw [← hslots, ← hsum]
  exact hrange.2

/-! ### Coin parts -/

/-- The coin parts that are made. -/
inductive CoinPart.Made : CoinPart → Prop
  | empty : Made .empty
  | ofBalance {balance : Int} {part : CoinPart} (made : CoinPart.ofBalance balance = .ok part) :
      Made part
  | ofRole (role : CoinPart.Role) : Made (.ofRole role)
  | ofBytes {bytes : Bytes} {part : CoinPart} (made : CoinPart.ofBytes bytes = .ok part) : Made part

namespace CoinPart

theorem balance_nonneg_of_ofFields {role flags balance : Value} {part : CoinPart}
    (h : ofFields role flags balance = .ok part) : 0 ≤ part.balance := by
  unfold ofFields at h
  obtain ⟨code, -, h⟩ := bind_eq_ok.1 h
  split at h
  · simp only [bind_eq_ok, throw_bind, refused_or_eq_ok] at h
    obtain ⟨flags, -, balance, -, hsign, hpart⟩ := h
    cases hpart
    exact Int.not_lt.1 hsign
  · exact absurd h (throw_ne_ok _ _)

theorem balance_nonneg_of_ofValue {value : Value} {part : CoinPart} (h : ofValue value = .ok part) :
    0 ≤ part.balance := by
  unfold ofValue at h
  obtain ⟨items, -, h⟩ := bind_eq_ok.1 h
  split at h
  · simp only [bind_eq_ok, throw_bind, refused_or_eq_ok, mapError_eq_ok] at h
    obtain ⟨found, -, -, hfields⟩ := h
    exact balance_nonneg_of_ofFields hfields
  · exact absurd h (throw_ne_ok _ _)

/-- No coin part is made with a negative balance. -/
theorem Made.balance_nonneg {part : CoinPart} (h : part.Made) : 0 ≤ part.balance := by
  cases h with
  | empty => exact Int.le_refl 0
  | ofBalance made =>
      obtain ⟨hsign, hpart⟩ := refused_or_eq_ok.1 made
      cases hpart
      exact Int.not_lt.1 hsign
  | ofRole => exact Int.le_refl 0
  | ofBytes made =>
      obtain ⟨value, -, hvalue⟩ := bind_eq_ok.1 made
      exact balance_nonneg_of_ofValue hvalue

end CoinPart

/-! ### Stake parts -/

/-- The stake parts that are made. -/
inductive StakePart.Made : StakePart → Prop
  | empty : Made .empty
  | ofStake {stake : Int} {part : StakePart} (made : StakePart.ofStake stake = .ok part) : Made part
  | ofSingle {stake unstake : Int} {unstakeHeight : Nat} {part : StakePart}
      (made : StakePart.ofSingle stake unstake unstakeHeight = .ok part) : Made part
  | ofSlots {stake : Int} {slots : List Slot} {part : StakePart}
      (made : StakePart.ofSlots stake slots = .ok part) : Made part
  | ofBytes {bytes : Bytes} {part : StakePart} (made : StakePart.ofBytes bytes = .ok part) :
      Made part

/-- A sound part whose sum is an amount, and that keeps what is pending in one shape. -/
structure StakePart.WellFormed (part : StakePart) : Prop extends StakePart.Sound part where
  fits : part.stake + part.pending ≤ Amount.greatest
  one_shape : part.unstake = 0 ∨ part.slots = []

namespace StakePart

theorem WellFormed.empty : WellFormed empty where
  toSound := Sound.empty
  fits := by decide
  one_shape := Or.inl rfl

/-- The single shape, once its amounts are checked. -/
theorem wellFormed_of_single {stake unstake : Int} (height : Nat)
    (hsigns : ¬ (stake < 0 ∨ unstake < 0)) (hfits : amountsFit stake unstake [] = true) :
    WellFormed { empty with stake, unstake, unstakeHeight := height } where
  stake_nonneg := by
    change 0 ≤ stake
    omega
  unstake_nonneg := by
    change 0 ≤ unstake
    omega
  slots_valid := Slot.Valid.nil
  fits := by
    have hsum := sum_le_of_amountsFit hfits
    rw [Slot.total_nil] at hsum
    change stake + (unstake + Slot.total []) ≤ _
    rw [Slot.total_nil]
    omega
  one_shape := Or.inr rfl

/-- The shape of slots, once they are checked. -/
theorem wellFormed_of_slots {stake : Int} {slots : List Slot} (hstake : ¬ stake < 0)
    (hvalid : Slot.Valid slots) (hfits : amountsFit stake 0 slots = true) :
    WellFormed { empty with stake, slots } where
  stake_nonneg := Int.not_lt.1 hstake
  unstake_nonneg := Int.le_refl 0
  slots_valid := hvalid
  fits := by
    have hsum := sum_le_of_amountsFit hfits
    change stake + (0 + Slot.total slots) ≤ _
    omega
  one_shape := Or.inl rfl

theorem wellFormed_of_ofSingle {stake unstake : Int} {height : Nat} {part : StakePart}
    (h : ofSingle stake unstake height = .ok part) : part.WellFormed := by
  obtain ⟨hsigns, h⟩ := refused_or_eq_ok.1 h
  obtain ⟨hfits, hpart⟩ := refused_or_eq_ok.1 h
  cases hpart
  exact wellFormed_of_single _ hsigns (by simpa using hfits)

theorem wellFormed_of_ofSlots {stake : Int} {slots : List Slot} {part : StakePart}
    (h : ofSlots stake slots = .ok part) : part.WellFormed := by
  obtain ⟨hstake, h⟩ := refused_or_eq_ok.1 h
  obtain ⟨hvalid, h⟩ := refused_or_eq_ok.1 h
  obtain ⟨hfits, hpart⟩ := refused_or_eq_ok.1 h
  cases hpart
  exact wellFormed_of_slots hstake (Decidable.not_not.1 hvalid) (by simpa using hfits)

theorem wellFormed_of_ofSingleFields {stake unstake height : Value} {part : StakePart}
    (h : ofSingleFields stake unstake height = .ok part) : part.WellFormed := by
  unfold ofSingleFields at h
  simp only [bind_eq_ok, throw_bind, refused_or_eq_ok] at h
  obtain ⟨stake, -, unstake, -, height, -, hsigns, hfits, hpart⟩ := h
  cases hpart
  exact wellFormed_of_single _ hsigns (by simpa using hfits)

theorem wellFormed_of_ofSlotFields {stake entries : Value} {part : StakePart}
    (h : ofSlotFields stake entries = .ok part) : part.WellFormed := by
  unfold ofSlotFields at h
  simp only [bind_eq_ok, throw_bind, refused_or_eq_ok, not_or] at h
  obtain ⟨stake, -, items, -, slots, -, hstake, ⟨hvalid, hfits⟩, hpart⟩ := h
  cases hpart
  exact wellFormed_of_slots hstake (Decidable.not_not.1 hvalid) (by simpa using hfits)

theorem wellFormed_of_ofValue {value : Value} {part : StakePart} (h : ofValue value = .ok part) :
    part.WellFormed := by
  unfold ofValue at h
  obtain ⟨items, -, h⟩ := bind_eq_ok.1 h
  split at h
  · exact absurd h (throw_ne_ok _ _)
  · obtain ⟨found, -, h⟩ := bind_eq_ok.1 h
    split at h
    · split at h
      · exact wellFormed_of_ofSingleFields (mapError_eq_ok.1 h)
      · exact absurd h (throw_ne_ok _ _)
    · split at h
      · split at h
        · exact wellFormed_of_ofSlotFields (mapError_eq_ok.1 h)
        · exact absurd h (throw_ne_ok _ _)
      · exact absurd h (throw_ne_ok _ _)

/-- **Every stake part that is made is well-formed.** -/
theorem Made.wellFormed {part : StakePart} (h : part.Made) : part.WellFormed := by
  cases h with
  | empty => exact WellFormed.empty
  | ofStake made => exact wellFormed_of_ofSingle made
  | ofSingle made => exact wellFormed_of_ofSingle made
  | ofSlots made => exact wellFormed_of_ofSlots made
  | ofBytes made =>
      obtain ⟨value, -, hvalue⟩ := bind_eq_ok.1 made
      exact wellFormed_of_ofValue hvalue

end StakePart

/-! ### Accounts -/

/-- An account whose coin part and stake part are made, as far as they are loaded. -/
structure Account.Made (account : Account) : Prop where
  coin_made : ∀ coin, account.coin = some coin → coin.Made
  stake_made : ∀ part, account.stake = some part → part.Made

/-- An account with a balance of 100 and a stake of 50, and with 30 pending until height 10. -/
def Account.small : Account where
  address := ⟨.user, List.replicate Address.bodySize 0, rfl⟩
  height := 0
  revision := .multipleUnstake
  coin := some { CoinPart.empty with balance := 100 }
  stake := some { StakePart.empty with stake := 50, unstake := 30, unstakeHeight := 10 }
  delegation := none

theorem Account.small_made : small.Made where
  coin_made := by
    rintro _ ⟨⟩
    exact @CoinPart.Made.ofBalance 100 _ rfl
  stake_made := by
    rintro _ ⟨⟩
    exact @StakePart.Made.ofSingle 50 30 10 _ rfl

end StakeLedger
