/-
**A release pays exactly what is unlocked.**

What is unlocked is counted before it is paid in, and taken out of the stake part afterwards.  The
count looks at the single amount where it stands; taking out moves it into the slots first.  Still
both come to the same, for every mix of the two shapes and in whatever order the slots are.  Hence a
release moves into the balance what it drops and nothing else, and what it leaves is not unlocked:
to release once more at the same height changes nothing.

Main definitions:

* `StakeLedger.UnstakePolicy.Settles` — **what a release does to the two parts of an account**.

Main results:

* `StakeLedger.UnstakePolicy.releaseMatured_fst` — what is taken out is what was counted;
* `StakeLedger.UnstakePolicy.release_release` — nothing that is unlocked is left;
* `StakeLedger.Account.released_exactly` — the same for accounts.
-/
import StakeLedger.Proofs.Loaded
import StakeLedger.Proofs.Schedules

set_option autoImplicit false

namespace StakeLedger

/-! ### What is taken out and what is left -/

namespace UnstakePolicy

variable {policy : UnstakePolicy} {part : StakePart} {height : Nat}

/-- **What is taken out is what was counted before.** -/
theorem releaseMatured_fst (nonneg : 0 ≤ part.unstake) (policy : UnstakePolicy) (height : Nat) :
    (policy.releaseMatured part height).1 = policy.matured part height := by
  cases policy with
  | single =>
      simp only [releaseMatured, matured]
      split <;> rfl
  | slots =>
      rw [matured_schedule nonneg]
      simp only [releaseMatured, Slot.takeMatured_eq]
      rfl

theorem slots_release (part : StakePart) (height : Nat) :
    (release .slots part height).slots =
      part.schedule.filter fun slot => !slot.matured height := rfl

theorem unstake_release (part : StakePart) (height : Nat) :
    (release .slots part height).unstake = 0 := StakePart.adopt_unstake part

/-- The single amount that a release leaves is not unlocked. -/
theorem not_unlocked_release (part : StakePart) (height : Nat) :
    ¬ (0 < (release .single part height).unstake ∧
      (release .single part height).unstakeHeight ≠ 0 ∧
      (release .single part height).unstakeHeight ≤ height) := by
  rw [release_single]
  split
  · exact fun hleft => absurd hleft.1 (Int.lt_irrefl 0)
  · assumption

/-- Nothing of what is left is unlocked. -/
theorem matured_release (policy : UnstakePolicy) (part : StakePart) (height : Nat) :
    policy.matured (policy.release part height) height = 0 := by
  cases policy with
  | single => rw [matured_single, if_neg (not_unlocked_release part height)]
  | slots =>
      have hidle : 0 ≤ (release .slots part height).unstake :=
        Int.le_of_eq (unstake_release part height).symm
      -- a slot that is kept is one that is not unlocked
      have hnone : (part.schedule.filter fun slot => !slot.matured height).filter
          (Slot.matured height) = [] := by
        rw [List.filter_filter, List.filter_eq_nil_iff]
        simp
      rw [matured_schedule hidle, schedule_release, hnone, Slot.total_nil]

/-- Under the slot policy a single amount that is unlocked leaves the same as none. -/
theorem release_of_unlocked (pos : 0 < part.unstake) (unlocked : part.unstakeHeight ≤ height) :
    release .slots part height =
      release .slots { part with unstake := 0, unstakeHeight := 0 } height := by
  have hadopt : part.adopt =
      { part with
        slots := Slot.insert ⟨part.unstake, part.unstakeHeight⟩ part.slots
        unstake := 0
        unstakeHeight := 0 } := if_neg (by omega)
  have hnone : ({ part with unstake := 0, unstakeHeight := 0 } : StakePart).adopt =
      { part with unstake := 0, unstakeHeight := 0 } := StakePart.adopt_of_unstake_eq_zero rfl
  rw [release, release, hadopt, hnone]
  dsimp only
  rw [Slot.filter_insert_of_neg (by simpa [Slot.matured] using unlocked)]

/-- **What was released earlier makes no difference later**, as long as a policy that knows slots is
not followed by one that does not. -/
theorem release_release_of_le {first second : UnstakePolicy}
    (known : first = .slots → second = .slots) {early late : Nat} (le : early ≤ late)
    (part : StakePart) :
    second.release (first.release part early) late = second.release part late := by
  cases first with
  | single =>
      by_cases h : 0 < part.unstake ∧ part.unstakeHeight ≠ 0 ∧ part.unstakeHeight ≤ early
      · -- the amount is unlocked at the later height too, whichever policy releases it there
        obtain ⟨hpos, hheight, hle⟩ := h
        have hlate := Nat.le_trans hle le
        rw [release_single part early, if_pos ⟨hpos, hheight, hle⟩]
        cases second with
        | single =>
            rw [release_single part late, if_pos ⟨hpos, hheight, hlate⟩, release_single,
              if_neg fun hleft => absurd hleft.1 (Int.lt_irrefl 0)]
        | slots => exact (release_of_unlocked hpos hlate).symm
      · rw [release_single part early, if_neg h]
  | slots =>
      have hkept : ∀ slot : Slot, (!slot.matured late && !slot.matured early) =
          !slot.matured late := by
        intro slot
        simp only [Slot.matured]
        by_cases hlate : slot.unlockHeight ≤ late
        · simp [hlate]
        · simp [hlate, show ¬ slot.unlockHeight ≤ early by omega]
      rw [known rfl, release, adopt_release, slots_release, List.filter_filter]
      simp only [hkept, release]
      rfl

/-- To release twice at one height is to release once. -/
theorem release_release (policy : UnstakePolicy) (part : StakePart) (height : Nat) :
    policy.release (policy.release part height) height = policy.release part height :=
  release_release_of_le (fun h => h) (Nat.le_refl height) part

/-! ### What an account pays in -/

/-- What a release at `height` does to the two parts of an account: `paid` and `left` are the coin
part and the stake part after it. -/
structure Settles (policy : UnstakePolicy) (height : Nat) (coin paid : CoinPart)
    (part left : StakePart) : Prop where
  slots : policy = .slots →
    paid.balance = coin.balance +
        Slot.total (part.schedule.filter fun slot => decide (slot.unlockHeight ≤ height)) ∧
      left.slots = part.schedule.filter (fun slot => !decide (slot.unlockHeight ≤ height)) ∧
      left.unstake = 0
  single : policy = .single →
    left.slots = part.slots ∧
      if 0 < part.unstake ∧ part.unstakeHeight ≠ 0 ∧ part.unstakeHeight ≤ height then
        paid.balance = coin.balance + part.unstake ∧ left.unstake = 0 ∧ left.unstakeHeight = 0
      else
        paid.balance = coin.balance ∧ left.unstake = part.unstake ∧
          left.unstakeHeight = part.unstakeHeight
  stake_eq : left.stake = part.stake
  totalUnstaked_eq : left.totalUnstaked = part.totalUnstaked
  fixed_eq : paid.fixed = coin.fixed

theorem totalUnstaked_release (policy : UnstakePolicy) (part : StakePart) (height : Nat) :
    (policy.release part height).totalUnstaked = part.totalUnstaked := by
  cases policy with
  | single =>
      simp only [release]
      split <;> rfl
  | slots => exact StakePart.adopt_totalUnstaked part

/-- A coin part that was paid what is unlocked, beside a stake part without it. -/
theorem settles_release (nonneg : 0 ≤ part.unstake) (policy : UnstakePolicy) (height : Nat)
    {coin paid : CoinPart} (hbalance : paid.balance = coin.balance + policy.matured part height)
    (hfixed : paid.fixed = coin.fixed) :
    policy.Settles height coin paid part (policy.release part height) where
  slots hpolicy := by
    subst hpolicy
    rw [hbalance, matured_schedule nonneg]
    exact ⟨rfl, rfl, unstake_release part height⟩
  single hpolicy := by
    subst hpolicy
    rw [hbalance, matured_single, release_single]
    by_cases h : 0 < part.unstake ∧ part.unstakeHeight ≠ 0 ∧ part.unstakeHeight ≤ height
    · rw [if_pos h, if_pos h, if_pos h]
      exact ⟨rfl, rfl, rfl, rfl⟩
    · rw [if_neg h, if_neg h, if_neg h]
      exact ⟨rfl, Int.add_zero _, rfl, rfl⟩
  stake_eq := release_stake height
  totalUnstaked_eq := totalUnstaked_release policy part height
  fixed_eq := hfixed

end UnstakePolicy

/-! ### Accounts -/

namespace CoinPart

/-- The last time that bits are set or cleared decides. -/
theorem setFlag_setFlag (coin : CoinPart) (flag : UInt8) (first on : Bool) :
    (coin.setFlag flag first).setFlag flag on = coin.setFlag flag on := by
  have hcleared : (coin.flags ||| flag) &&& ~~~flag = coin.flags &&& ~~~flag :=
    UInt8.eq_of_toBitVec_eq (by simp [BitVec.and_or_distrib_right])
  have hset : coin.flags &&& ~~~flag ||| flag = coin.flags ||| flag := by
    refine UInt8.eq_of_toBitVec_eq (BitVec.eq_of_getElem_eq fun i hi => ?_)
    simp only [UInt8.toBitVec_or, UInt8.toBitVec_and, UInt8.toBitVec_not, BitVec.getElem_or,
      BitVec.getElem_and, BitVec.getElem_not]
    cases coin.flags.toBitVec[i] <;> simp
  cases first <;> cases on <;>
    simp [setFlag, UInt8.or_assoc, UInt8.and_assoc, hcleared, hset]

/-- The coin part with another balance, and with the flag that says whether an unstake is pending. -/
def holding (coin : CoinPart) (balance : Int) (pending : Bool) : CoinPart :=
  setFlag { coin with balance } hasUnstakeFlag pending

@[simp] theorem balance_holding (coin : CoinPart) (balance : Int) (pending : Bool) :
    (coin.holding balance pending).balance = balance := rfl

@[simp] theorem holding_holding (coin : CoinPart) (first balance : Int) (before pending : Bool) :
    (coin.holding first before).holding balance pending = coin.holding balance pending :=
  setFlag_setFlag { coin with balance } hasUnstakeFlag before pending

end CoinPart

namespace Account

variable {account after : Account} {revision : Revision} {coin : CoinPart} {part : StakePart}

/-- The parts after a release. -/
theorem released_eq (account : Account) (policy : UnstakePolicy) (coin : CoinPart)
    (part : StakePart) :
    account.released policy (some coin) part =
      { account with
        coin := some (coin.setFlag CoinPart.hasUnstakeFlag
          (decide (0 < (policy.release part account.height).pending)))
        stake := some (policy.release part account.height) } := rfl

/-- A release that is accepted pays what is unlocked, be it nothing. -/
theorem Effect.eq_released (effect : Effect account (.normalize revision) after)
    (coin_loaded : account.coin = some coin) (loaded : account.stake = some part)
    (nonneg : 0 ≤ (UnstakePolicy.ofRevision revision).matured part account.height) :
    after = account.released (.ofRevision revision)
      (some { coin with
        balance :=
          coin.balance + (UnstakePolicy.ofRevision revision).matured part account.height })
      part := by
  cases effect with
  | release found_coin found _ _ =>
      cases coin_loaded.symm.trans found_coin
      cases loaded.symm.trans found
      rfl
  | settle found none_matured =>
      cases loaded.symm.trans found
      rw [coin_loaded, Int.le_antisymm none_matured nonneg, Int.add_zero]
  | unstaked unloaded => cases loaded.symm.trans unloaded

/-- Once all that is unlocked is released, a release is accepted and changes nothing. -/
theorem normalize_released (account : Account) (revision : Revision) (coin : CoinPart)
    (part : StakePart) :
    (account.released (.ofRevision revision) (some coin) part).perform (.normalize revision) =
      (.ok (), account.released (.ofRevision revision) (some coin) part) := by
  have hnone := UnstakePolicy.matured_release (.ofRevision revision) part account.height
  have hsame := UnstakePolicy.release_release (.ofRevision revision) part account.height
  refine (normalize_of_settled (synced_stake _) ?_).trans ?_
  · change ¬ 0 < (UnstakePolicy.ofRevision revision).matured
      ((UnstakePolicy.ofRevision revision).release part account.height) account.height
    rw [hnone]
    exact Int.lt_irrefl 0
  · rw [released_eq, released_eq]
    change (_, ({ account with coin := _, stake := some _ } : Account)) = _
    rw [hsame, CoinPart.setFlag_setFlag]

/-- **What is counted as unlocked is what a release takes out.  A release that is accepted pays it
into the balance and leaves everything else of the account as it is, and a second one changes
nothing.** -/
theorem released_exactly :
    (∀ (policy : UnstakePolicy) (part : StakePart) (height : Nat), 0 ≤ part.unstake →
      (policy.releaseMatured part height).1 = policy.matured part height) ∧
    ∀ (account after : Account) (revision : Revision) (coin : CoinPart) (part : StakePart),
      account.coin = some coin → account.stake = some part → 0 ≤ part.unstake →
      (∀ slot ∈ part.slots, 0 < slot.amount) →
      account.perform (.normalize revision) = (.ok (), after) →
      ∃ paid left, after = { account with coin := some paid, stake := some left } ∧
        (UnstakePolicy.ofRevision revision).Settles account.height coin paid part left ∧
        after.perform (.normalize revision) = (.ok (), after) := by
  refine ⟨fun policy part height nonneg => UnstakePolicy.releaseMatured_fst nonneg policy height,
    fun account after revision coin part coin_loaded loaded nonneg amounts accepted => ?_⟩
  have hmatured := UnstakePolicy.matured_nonneg_of_amounts nonneg amounts
    (.ofRevision revision) account.height
  have hafter := (effect_of_perform_ok accepted).eq_released coin_loaded loaded hmatured
  subst hafter
  refine ⟨_, _, released_eq _ _ _ _, ?_, normalize_released _ _ _ _⟩
  exact UnstakePolicy.settles_release nonneg _ _ rfl (CoinPart.fixed_setFlag _ _)

/-- At height 10 the slot policy releases the first slot and the single amount, which unlocks at that
very height. -/
theorem released_exactly_mixed :
    (UnstakePolicy.slots.releaseMatured .mixed 10).1 = 35 ∧
      ∃ paid left,
        ({ mixed with height := 10 } : Account).step (.normalize ⟨9⟩) =
          { mixed with height := 10, coin := some paid, stake := some left } ∧
        paid.balance = 135 ∧ left.slots = [⟨7, 20⟩] ∧
        (({ mixed with height := 10 } : Account).step (.normalize ⟨9⟩)).perform (.normalize ⟨9⟩) =
          (.ok (), ({ mixed with height := 10 } : Account).step (.normalize ⟨9⟩)) := by
  obtain ⟨hcounted, hreleased⟩ := released_exactly
  have accepted : ({ mixed with height := 10 } : Account).perform (.normalize ⟨9⟩) =
      (.ok (), ({ mixed with height := 10 } : Account).step (.normalize ⟨9⟩)) := rfl
  obtain ⟨paid, left, hafter, hsettles, hagain⟩ :=
    hreleased _ _ _ _ _ rfl rfl (by decide) (by decide) accepted
  obtain ⟨hbalance, hslots, -⟩ := hsettles.slots rfl
  exact ⟨hcounted .slots .mixed 10 (by decide), paid, left, hafter, hbalance, hslots, hagain⟩

end Account

end StakeLedger
