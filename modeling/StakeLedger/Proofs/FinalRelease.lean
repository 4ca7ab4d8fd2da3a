/-
**Nothing is stranded, unless it unlocks at height zero.**

However a fresh account got to where it is, at the greatest height a release is accepted and pays all
that is pending into the balance.  There is one exception.  In the single shape a height of zero says
that no height is known, and so the single policy never releases an unstake that unlocks at height
zero; since each unstake replaces the height, it is the last one that decides.  A later revision that
knows several unstakes releases that amount too.

Main definitions:

* `StakeLedger.Account.Fresh` — accounts with empty parts;
* `StakeLedger.Account.lastUnlock` — where the last decrease of a run unlocks;
* `StakeLedger.Account.UnlocksAt` — the single amount unlocks at a given height, if there is one.

Main results:

* `StakeLedger.Account.unlocksAt_run` — the single amount unlocks where the last decrease does;
* `StakeLedger.Account.released_at_last` — **what a release at the greatest height pays and leaves**.
-/
import StakeLedger.Proofs.Matured
import StakeLedger.Proofs.Refusal

set_option autoImplicit false

namespace StakeLedger

/-! ### The height of the single amount -/

namespace UnstakePolicy

variable {policy : UnstakePolicy} {part : StakePart}

/-- What an increase leaves in the single shape was there before, and keeps its height. -/
theorem unstakeHeight_raise {delta : Int} (pos : 0 < delta)
    (left : (policy.raise part delta).unstake ≠ 0) :
    part.unstake ≠ 0 ∧ (policy.raise part delta).unstakeHeight = part.unstakeHeight := by
  cases policy with
  | single =>
      refine ⟨fun hidle => left ?_, if_neg left⟩
      change part.unstake - min (min delta part.unstake) part.unstake = 0
      omega
  | slots => exact absurd (StakePart.adopt_unstake part) left

/-- After a decrease the single amount unlocks where the decrease does. -/
theorem unstakeHeight_lower {released : Int} {unlockHeight slotMax : Nat}
    (left : (policy.lower part released unlockHeight slotMax).unstake ≠ 0) :
    (policy.lower part released unlockHeight slotMax).unstakeHeight = unlockHeight := by
  cases policy with
  | single => rfl
  | slots => exact absurd (StakePart.adopt_unstake part) left

/-- A single amount that a release leaves is the one that was there. -/
theorem unstakeHeight_release {height : Nat} (left : (policy.release part height).unstake ≠ 0) :
    policy.release part height = part := by
  cases policy with
  | single =>
      rw [release_single] at left ⊢
      split
      · next hunlocked =>
          rw [if_pos hunlocked] at left
          exact absurd rfl left
      · rfl
  | slots => exact absurd (unstake_release part height) left

/-- Without an amount or without a height the single policy has nothing unlocked. -/
theorem matured_of_zero (h : part.unstake = 0 ∨ part.unstakeHeight = 0) (height : Nat) :
    matured .single part height = 0 := by
  rw [matured_single, if_neg]
  rintro ⟨hpos, hheight, -⟩
  obtain hidle | hzero := h
  · omega
  · exact hheight hzero

/-- At the greatest height all that a policy covers is unlocked, if there is a height for it. -/
theorem matured_maxHeight (sound : part.Sound) (fit : part.HeightsFit)
    (covers : policy.Covers part)
    (unlocks : policy = .single → part.unstake ≠ 0 → part.unstakeHeight ≠ 0) :
    policy.matured part maxHeight = part.pending := by
  have hnonneg := sound.unstake_nonneg
  cases policy with
  | single =>
      have hpending : part.unstake = part.pending := covers.pending_eq
      by_cases hidle : part.unstake = 0
      · rw [matured_of_zero (Or.inl hidle), ← hpending, hidle]
      · rw [matured_single, if_pos ⟨by omega, unlocks rfl hidle, fit.height_le⟩, hpending]
  | slots =>
      have hall : part.schedule.filter (Slot.matured maxHeight) = part.schedule :=
        List.filter_eq_self.2 fun slot hslot => decide_eq_true (fit.schedule slot hslot)
      rw [matured_schedule hnonneg, hall, StakePart.total_schedule]

end UnstakePolicy

namespace Account

/-- An account with an empty coin part and an empty stake part. -/
structure Fresh (account : Account) : Prop where
  coin_eq : account.coin = some .empty
  stake_eq : account.stake = some .empty

/-- The height at which an operation unlocks what it takes off the stake, if it takes off anything. -/
def Operation.unlock? (account after : Account) : Operation → Option Nat
  | .setStake ctx _ =>
      if after.staked < account.staked then some (ctx.height + ctx.lockPeriod) else none
  | _ => none

/-- The height at which the last decrease of a run unlocks, of those that were accepted. -/
def lastUnlock (account : Account) : List Operation → Option Nat
  | [] => none
  | operation :: rest =>
      ((account.step operation).lastUnlock rest).or
        (operation.unlock? account (account.step operation))

/-- The single amount unlocks at the height that is known, if there is one. -/
def UnlocksAt (known : Option Nat) (account : Account) : Prop :=
  ∀ part, account.stake = some part → part.unstake ≠ 0 → known = some part.unstakeHeight

variable {account after : Account} {operation : Operation} {known : Option Nat}

theorem Operation.unlock?_of_not_lt (h : ¬ after.staked < account.staked)
    (operation : Operation) : operation.unlock? account after = none := by
  cases operation with
  | setStake ctx value => exact if_neg h
  | _ => rfl

/-- A move of the stake part keeps the height of the single amount, or sets it to where the move
unlocks. -/
theorem StakeMove.unlocksAt {part moved : StakePart} (move : StakeMove account operation part moved)
    (loaded : account.stake = some part) (after_loaded : after.stake = some moved)
    (h : account.UnlocksAt known) (left : moved.unstake ≠ 0) :
    (operation.unlock? account after).or known = some moved.unstakeHeight := by
  have hbefore := staked_of_loaded loaded
  have hafter := staked_of_loaded after_loaded
  cases move with
  | @raise ctx value coin _ admitted higher _ =>
      -- an increase unlocks nothing, and keeps the height of what it leaves
      obtain ⟨hpending, hheight⟩ := UnstakePolicy.unstakeHeight_raise (by omega) left
      have hstake : after.staked = part.stake + (value - part.stake) := hafter
      rw [Operation.unlock?_of_not_lt (by omega), hheight]
      exact h part loaded hpending
  | @lower ctx value coin _ admitted lower =>
      have hstake : after.staked = part.stake - (part.stake - value) := hafter
      rw [Operation.unlock?, if_pos (by omega), UnstakePolicy.unstakeHeight_lower left]
      rfl
  | release =>
      have hsame := UnstakePolicy.unstakeHeight_release left
      rw [hsame] at left ⊢
      exact h part loaded left

theorem unlocksAt_step (h : account.UnlocksAt known) (operation : Operation) :
    (account.step operation).UnlocksAt
      ((operation.unlock? account (account.step operation)).or known) := by
  intro found hfound left
  obtain hsame | ⟨part, moved, hpart, hmoved, move⟩ := stake_moves_step account operation
  · -- the operation was refused or is about other parts, and so it is no decrease
    have hstaked : (account.step operation).staked = account.staked := by
      rw [staked, staked, hsame]
    rw [Operation.unlock?_of_not_lt (by omega)]
    exact h found (hsame ▸ hfound) left
  · cases hfound.symm.trans hmoved
    exact move.unlocksAt hpart hmoved h left

/-- **After every run the single amount, if there is one, unlocks where the last decrease does.** -/
theorem unlocksAt_run (h : account.UnlocksAt known) (operations : List Operation) :
    (account.run operations).UnlocksAt ((account.lastUnlock operations).or known) := by
  induction operations generalizing account known with
  | nil => exact h
  | cons operation rest ih =>
      rw [run_cons, lastUnlock, Option.or_assoc]
      exact ih (unlocksAt_step h operation)

/-! ### Fresh accounts -/

theorem Fresh.made (h : account.Fresh) : account.Made where
  coin_made coin hcoin := by
    cases hcoin.symm.trans h.coin_eq
    exact .empty
  stake_made part hpart := by
    cases hpart.symm.trans h.stake_eq
    exact .empty

theorem Fresh.heightsFit (h : account.Fresh) :
    ∀ part, account.stake = some part → part.HeightsFit := by
  intro part hpart
  cases hpart.symm.trans h.stake_eq
  exact ⟨Nat.zero_le _, fun slot hslot => absurd hslot List.not_mem_nil⟩

theorem Fresh.unlocksAt (h : account.Fresh) : account.UnlocksAt none := by
  intro part hpart hpending
  cases hpart.symm.trans h.stake_eq
  exact absurd rfl hpending

/-- Operations whose revisions never fall, and a release at a revision that is not below theirs. -/
theorem Fresh.ascending (h : account.Fresh) {operations : List Operation} {revision : Revision}
    (pairwise : (operations.filterMap Operation.revision?).Pairwise (· ≤ ·))
    (later : ∀ used ∈ operations.filterMap Operation.revision?, used ≤ revision) :
    account.Ascending (operations ++ [.normalize revision]) where
  pairwise := by
    rw [List.filterMap_append, List.pairwise_append]
    refine ⟨pairwise, List.pairwise_singleton _ _, fun used hused other hother => ?_⟩
    cases List.mem_singleton.1 hother
    exact later used hused
  slots_known part hpart hslots := by
    cases hpart.symm.trans h.stake_eq
    exact absurd rfl hslots

theorem Fresh.loaded_run (h : account.Fresh) (operations : List Operation) :
    ∃ coin part, (account.run operations).coin = some coin ∧
      (account.run operations).stake = some part := by
  have hcontinues := continues_run account operations
  have hcoin := hcontinues.isSome_coin
  have hstake := hcontinues.isSome_stake
  rw [h.coin_eq] at hcoin
  rw [h.stake_eq] at hstake
  obtain ⟨coin, hcoin⟩ := Option.isSome_iff_exists.1 hcoin
  obtain ⟨part, hpart⟩ := Option.isSome_iff_exists.1 hstake
  exact ⟨coin, part, hcoin, hpart⟩

/-- What is unlocked at the greatest height after a run from a fresh account: everything, or under the
single policy nothing if the last decrease unlocks at height zero. -/
theorem Fresh.matured_run (h : account.Fresh) {operations : List Operation} {revision : Revision}
    (ascending : account.Ascending (operations ++ [.normalize revision])) {part : StakePart}
    (loaded : (account.run operations).stake = some part) :
    (¬ (UnstakePolicy.ofRevision revision = .single ∧ account.lastUnlock operations = some 0) →
      (UnstakePolicy.ofRevision revision).matured part maxHeight = part.pending) ∧
    (UnstakePolicy.ofRevision revision = .single ∧ account.lastUnlock operations = some 0 →
      (UnstakePolicy.ofRevision revision).matured part maxHeight = 0) := by
  obtain ⟨hformed, hascending⟩ := h.made.wellFormed.run ascending
  have hunlock := unlocksAt_run h.unlocksAt operations part loaded
  rw [Option.or_none] at hunlock
  constructor
  · intro hpaid
    refine UnstakePolicy.matured_maxHeight (hformed.stake_wellFormed part loaded).toSound
      (heightsFit_run h.heightsFit operations part loaded)
      (hascending.covered revision part rfl loaded) fun hsingle hpending hzero => hpaid ?_
    exact ⟨hsingle, by rw [hunlock hpending, hzero]⟩
  · rintro ⟨hsingle, hlast⟩
    rw [hsingle]
    -- the single amount is used up, or it is known to unlock at zero
    refine UnstakePolicy.matured_of_zero ?_ maxHeight
    by_cases hidle : part.unstake = 0
    · exact Or.inl hidle
    · exact Or.inr (Option.some_inj.1 ((hunlock hidle).symm.trans hlast))

/-! ### The last release -/

/-- A release that the balance has room for is accepted, and moves what is unlocked. -/
theorem exists_released (sound : account.Sound) {coin : CoinPart} {part : StakePart}
    (coin_loaded : account.coin = some coin) (loaded : account.stake = some part)
    (fits : account.worth ≤ Amount.greatest) (revision : Revision) :
    ∃ after, account.perform (.normalize revision) = (.ok (), after) ∧
      after.pending =
        account.pending - (UnstakePolicy.ofRevision revision).matured part account.height ∧
      after.balance =
        account.balance + (UnstakePolicy.ofRevision revision).matured part account.height := by
  have hpart := sound.stake_sound part loaded
  have hnonneg := UnstakePolicy.matured_nonneg hpart (.ofRevision revision) account.height
  have hrelease := UnstakePolicy.pending_release hpart (.ofRevision revision) account.height
  rw [worth_of_loaded coin_loaded loaded] at fits
  have accepted := perform_normalize_of_releaseRefusal sound
    (releaseRefusal_eq_none sound coin_loaded loaded fits revision)
  have hafter := (effect_of_perform_ok accepted).eq_released coin_loaded loaded hnonneg
  refine ⟨_, accepted, ?_, ?_⟩
  · rw [hafter, released_eq, pending, pending, loaded]
    exact hrelease
  · rw [hafter, released_eq, balance_of_loaded coin_loaded]
    rfl

/-- **However a fresh account was used, a release at the greatest height and at a revision that is
not below those used is accepted.  It leaves nothing pending and pays all of it, except under the
single policy where the last decrease unlocks at height zero: there it moves nothing.** -/
theorem released_at_last (fresh : account.Fresh) {operations : List Operation}
    {revision : Revision}
    (pairwise : (operations.filterMap Operation.revision?).Pairwise (· ≤ ·))
    (later : ∀ used ∈ operations.filterMap Operation.revision?, used ≤ revision)
    (fits : (account.run operations).worth ≤ Amount.greatest) :
    ∃ after,
      ((account.run operations).step (.setHeight maxHeight)).perform (.normalize revision) =
        (.ok (), after) ∧
      (¬ (UnstakePolicy.ofRevision revision = .single ∧ account.lastUnlock operations = some 0) →
        after.pending = 0 ∧
        after.balance = (account.run operations).balance + (account.run operations).pending) ∧
      (UnstakePolicy.ofRevision revision = .single ∧ account.lastUnlock operations = some 0 →
        after.pending = (account.run operations).pending ∧
        after.balance = (account.run operations).balance) := by
  obtain ⟨coin, part, hcoin, hpart⟩ := fresh.loaded_run operations
  have sound := run_sound fresh.made.sound (operations ++ [.setHeight maxHeight])
  rw [run, List.foldl_append] at sound
  obtain ⟨hall, hnone⟩ := fresh.matured_run (fresh.ascending pairwise later) hpart
  have hpending : (account.run operations).pending = part.pending := by rw [pending, hpart]
  obtain ⟨after, haccepted, hafter, hbalance⟩ :=
    @exists_released ((account.run operations).step (.setHeight maxHeight)) sound coin part hcoin
      hpart fits revision
  change after.pending = (account.run operations).pending -
    (UnstakePolicy.ofRevision revision).matured part maxHeight at hafter
  change after.balance = (account.run operations).balance +
    (UnstakePolicy.ofRevision revision).matured part maxHeight at hbalance
  refine ⟨after, haccepted, fun hpaid => ?_, fun hstuck => ?_⟩
  · have hmatured := hall hpaid
    omega
  · have hmatured := hnone hstuck
    omega

/-- A fresh account of a general user. -/
def unused : Account where
  address := small.address
  height := 0
  revision := .multipleUnstake
  coin := some .empty
  stake := some .empty
  delegation := none

/-- A decrease by 30 at height zero, with no lock period, while one pending unstake is known. -/
def unlockedAtZero : List Operation :=
  [.deposit 100, .setStake ⟨0, ⟨5⟩, 0, 1⟩ 50, .setStake ⟨0, ⟨5⟩, 0, 1⟩ 20]

theorem unused_fresh : unused.Fresh := ⟨rfl, rfl⟩

theorem released_at_last_unlockedAtZero :
    (∃ after,
      ((unused.run unlockedAtZero).step (.setHeight maxHeight)).perform (.normalize ⟨9⟩) =
        (.ok (), after) ∧ after.pending = 0 ∧ after.balance = 80) ∧
    ∃ after,
      ((unused.run (unlockedAtZero ++ [.setStake ⟨3, ⟨5⟩, 4, 1⟩ 15])).step
        (.setHeight maxHeight)).perform (.normalize ⟨5⟩) = (.ok (), after) ∧
      after.pending = 0 ∧ after.balance = 85 := by
  constructor
  · obtain ⟨after, haccepted, hpaid, -⟩ :=
      @released_at_last unused unused_fresh unlockedAtZero ⟨9⟩ (by decide) (by decide) (by decide)
    exact ⟨after, haccepted, hpaid (by decide)⟩
  · obtain ⟨after, haccepted, hpaid, -⟩ :=
      @released_at_last unused unused_fresh (unlockedAtZero ++ [.setStake ⟨3, ⟨5⟩, 4, 1⟩ 15]) ⟨5⟩
        (by decide) (by decide) (by decide)
    exact ⟨after, haccepted, hpaid (by decide)⟩

/-- **What unlocks at height zero is never released by the single policy**: at the greatest height a
release is accepted, and the 30 stay pending. -/
theorem pending_kept_at_zero :
    unused.Fresh ∧ (unlockedAtZero.filterMap Operation.revision?).Pairwise (· ≤ ·) ∧
      (∀ used ∈ unlockedAtZero.filterMap Operation.revision?, used ≤ ⟨5⟩) ∧
      (unused.run unlockedAtZero).worth ≤ Amount.greatest ∧
      (unused.run unlockedAtZero).pending = 30 ∧ (unused.run unlockedAtZero).balance = 50 ∧
      ∃ after,
        ((unused.run unlockedAtZero).step (.setHeight maxHeight)).perform (.normalize ⟨5⟩) =
          (.ok (), after) ∧ after.pending = 30 ∧ after.balance = 50 :=
  ⟨unused_fresh, by decide, by decide, by decide, by decide, by decide, _, rfl, by decide,
    by decide⟩

end Account

end StakeLedger
