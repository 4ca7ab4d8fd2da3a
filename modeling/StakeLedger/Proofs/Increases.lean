/-
**A stake may be raised in steps.**

An increase takes what it needs from the front of what is pending and the rest from the balance.
Where it stops, the next one goes on: the slot that the first increase left in part is the first
that the second one takes from, and the balance pays nothing before all that is pending is used up.
So a stake that is raised to one value and then to a greater one leads to the same account as one
that is raised to the greater value at once.  Both ways are admitted by the same funds, for no
increase changes what balance, stake and pending unstakes hold together.

Main definitions:

* `StakeLedger.UnstakePolicy.raiseTo`, `StakeLedger.Account.raisedTo` — the stake part and the
  account whose stake is raised to a value, which may be the one it has.

Main results:

* `StakeLedger.UnstakePolicy.reclaim_reclaim`, `StakeLedger.UnstakePolicy.raise_raise` — two amounts
  taken back, and two increases, are one;
* `StakeLedger.Account.setStake_eq_ok_iff` — when an increase is accepted, and what it leads to;
* `StakeLedger.Account.raised_in_steps` — **an increase in two steps is one increase**.
-/
import StakeLedger.Proofs.Matured
import StakeLedger.Proofs.Refusal

set_option autoImplicit false

namespace StakeLedger

/-! ### Stake parts -/

namespace UnstakePolicy

variable {policy : UnstakePolicy} {part : StakePart} {first second : Int}

/-- What is taken back is no longer counted as pending. -/
theorem counted_reclaim {amount : Int} (nonneg : 0 ≤ amount)
    (enough : amount ≤ policy.pending part) :
    policy.pending (policy.reclaim part amount) = policy.pending part - amount := by
  cases policy with
  | single =>
      have hmin : min amount part.unstake = amount := Int.min_eq_left enough
      change part.unstake - min amount part.unstake = part.unstake - amount
      rw [hmin]
  | slots => exact pending_reclaim nonneg enough

/-- Two amounts taken back one after the other are both of them taken back at once. -/
theorem reclaim_reclaim (hfirst : 0 ≤ first) (hsecond : 0 ≤ second) :
    policy.reclaim (policy.reclaim part first) second = policy.reclaim part (first + second) := by
  cases policy with
  | single =>
      have hleft : part.unstake - min first part.unstake -
          min second (part.unstake - min first part.unstake) =
            part.unstake - min (first + second) part.unstake := by
        omega
      simp only [reclaim, hleft]
      -- the height is cleared once nothing is left, by the first or by the second
      by_cases hnone : part.unstake - min (first + second) part.unstake = 0
      · rw [if_pos hnone, if_pos hnone]
      · rw [if_neg hnone, if_neg hnone, if_neg (by omega)]
  | slots =>
      rw [reclaim, adopt_reclaim]
      simp only [reclaim, Slot.drain_drain hfirst hsecond]

/-- What is taken back does not depend on the stake beside it. -/
theorem reclaim_restaked (policy : UnstakePolicy) (part : StakePart) (stake amount : Int) :
    policy.reclaim { part with stake } amount = { policy.reclaim part amount with stake } := by
  cases policy with
  | single => rfl
  | slots =>
      simp only [reclaim, StakePart.adopt]
      split <;> rfl

/-- What two increases take back is what one increase by both takes back. -/
theorem reclaimable_add (sound : part.Sound) (hfirst : 0 ≤ first) (hsecond : 0 ≤ second) :
    policy.reclaimable part first + policy.reclaimable (policy.raise part first) second =
      policy.reclaimable part (first + second) := by
  have hpending := pending_nonneg sound policy
  have hleft : policy.pending (policy.raise part first) =
      policy.pending part - policy.reclaimable part first :=
    counted_reclaim (Int.le_min.2 ⟨hfirst, hpending⟩) (Int.min_le_right _ _)
  unfold reclaimable at hleft ⊢
  omega

/-- **Two increases are one**: the second goes on where the first one stopped. -/
theorem raise_raise (sound : part.Sound) (hfirst : 0 ≤ first) (hsecond : 0 ≤ second) :
    policy.raise (policy.raise part first) second = policy.raise part (first + second) := by
  have hadd := @reclaimable_add policy part _ _ sound hfirst hsecond
  have hnonneg : 0 ≤ policy.reclaimable part first :=
    Int.le_min.2 ⟨hfirst, pending_nonneg sound policy⟩
  have hmore : 0 ≤ policy.reclaimable (policy.raise part first) second :=
    Int.le_min.2 ⟨hsecond, pending_nonneg (sound.raise hfirst policy) policy⟩
  have hstake : (policy.raise part first).stake + second = part.stake + (first + second) :=
    Int.add_assoc _ _ _
  have hreclaim : policy.reclaim (policy.raise part first)
      (policy.reclaimable (policy.raise part first) second) =
        { policy.reclaim part (policy.reclaimable part (first + second)) with
          stake := part.stake + first } := by
    rw [← hadd, ← reclaim_reclaim hnonneg hmore, ← reclaim_restaked]
    rfl
  rw [raise, hreclaim, hstake]
  rfl

/-- The part with its stake raised to a value; where that is the stake already nothing is done, and
the single shape is not adopted. -/
def raiseTo (policy : UnstakePolicy) (part : StakePart) (value : Int) : StakePart :=
  if part.stake < value then policy.raise part (value - part.stake) else part

variable {middle value : Int}

theorem raiseTo_stake (le : part.stake ≤ value) : (policy.raiseTo part value).stake = value := by
  unfold raiseTo
  split
  · change part.stake + (value - part.stake) = value
    omega
  · omega

theorem raiseTo_raiseTo (sound : part.Sound) (lower : part.stake ≤ middle)
    (upper : middle ≤ value) :
    policy.raiseTo (policy.raiseTo part middle) value = policy.raiseTo part value := by
  have hstake := @raiseTo_stake policy part _ lower
  rw [raiseTo, hstake]
  by_cases hfirst : part.stake < middle
  · have hraise : policy.raiseTo part middle = policy.raise part (middle - part.stake) :=
      if_pos hfirst
    have hwhole : policy.raiseTo part value = policy.raise part (value - part.stake) :=
      if_pos (by omega)
    by_cases hsecond : middle < value
    · have hsum : middle - part.stake + (value - middle) = value - part.stake := by omega
      rw [if_pos hsecond, hraise, raise_raise sound (by omega) (by omega), hsum, hwhole]
    · have hsame : middle = value := by omega
      rw [if_neg hsecond, hsame]
  · have hsame : policy.raiseTo part middle = part := if_neg hfirst
    have hmiddle : middle = part.stake := by omega
    rw [hsame, hmiddle]
    rfl

/-- What the balance pays in two steps is what it pays in one. -/
theorem payable_raiseTo (sound : part.Sound) (lower : part.stake ≤ middle)
    (upper : middle ≤ value) :
    policy.payable part (middle - part.stake) +
        policy.payable (policy.raiseTo part middle) (value - middle) =
      policy.payable part (value - part.stake) := by
  have hpending := pending_nonneg sound policy
  unfold raiseTo
  split
  · have hadd := @reclaimable_add policy part _ _ sound (Int.sub_nonneg.2 lower)
      (Int.sub_nonneg.2 upper)
    have hsum : middle - part.stake + (value - middle) = value - part.stake := by omega
    rw [hsum] at hadd
    unfold payable
    omega
  · unfold payable reclaimable
    omega

/-- An increase changes nothing about what the stake and what is counted as pending hold together,
apart from what the balance pays. -/
theorem funds_raiseTo (sound : part.Sound) (le : part.stake ≤ value) :
    (policy.raiseTo part value).stake + policy.pending (policy.raiseTo part value) =
      part.stake + policy.pending part + policy.payable part (value - part.stake) := by
  have hpending := pending_nonneg sound policy
  rw [raiseTo_stake le]
  unfold raiseTo
  split
  · have hleft : policy.pending (policy.raise part (value - part.stake)) =
        policy.pending part - policy.reclaimable part (value - part.stake) :=
      counted_reclaim (Int.le_min.2 ⟨by omega, hpending⟩) (Int.min_le_right _ _)
    rw [hleft]
    unfold payable
    omega
  · unfold payable reclaimable
    omega

end UnstakePolicy

/-! ### Accounts -/

namespace Account

/-- The account with its stake raised to `value`, which may be the stake it has. -/
def raisedTo (account : Account) (policy : UnstakePolicy) (coin : CoinPart) (part : StakePart)
    (value : Int) : Account :=
  let raised := policy.raiseTo part value
  { account with
    coin := some (coin.holding (coin.balance - policy.payable part (value - part.stake))
      (decide (0 < raised.pending)))
    stake := some raised }

variable {account after : Account} {ctx : StakingContext} {coin : CoinPart} {part : StakePart}
variable {middle value : Int}

/-- An accepted change to a value that is not less is an increase, or none. -/
theorem Effect.eq_raisedTo (effect : Effect account (.setStake ctx value) after)
    (sound : account.Sound) (loaded : account.stake = some part) (le : part.stake ≤ value) :
    ∃ coin, Admitted account ctx value coin part ∧
      account.raisedTo ctx.policy coin part value = after := by
  cases effect with
  | raise admitted higher paid =>
      cases loaded.symm.trans admitted.stake_loaded
      refine ⟨_, admitted, ?_⟩
      rw [raisedTo, UnstakePolicy.raiseTo, if_pos higher]
      rfl
  | lower admitted lower _ =>
      cases loaded.symm.trans admitted.stake_loaded
      exact absurd le (Int.not_le.2 lower)
  | @keep _ _ coin _ admitted same =>
      cases loaded.symm.trans admitted.stake_loaded
      subst same
      refine ⟨coin, admitted, ?_⟩
      have hpending := UnstakePolicy.pending_nonneg (sound.stake_sound part loaded) ctx.policy
      have hfree : coin.balance - ctx.policy.payable part (part.stake - part.stake) =
          coin.balance := by
        unfold UnstakePolicy.payable UnstakePolicy.reclaimable
        omega
      rw [raisedTo, UnstakePolicy.raiseTo, if_neg (Int.lt_irrefl _), hfree, Account.synced,
        admitted.coin_loaded, loaded]
      rfl

/-- **An increase is accepted if it is admitted**, and what it leads to is known. -/
theorem setStake_eq_ok_iff (sound : account.Sound) (loaded : account.stake = some part)
    (le : part.stake ≤ value) :
    account.perform (.setStake ctx value) = (.ok (), after) ↔
      ∃ coin, Admitted account ctx value coin part ∧
        account.raisedTo ctx.policy coin part value = after := by
  constructor
  · intro haccepted
    exact (effect_of_perform_ok haccepted).eq_raisedTo sound loaded le
  · rintro ⟨coin, admitted, rfl⟩
    have houtcome : (account.perform (.setStake ctx value)).1 = .ok () := by
      have h := setStake_outcome sound ctx value
      rwa [stakeRefusal_eq_none admitted le] at h
    have haccepted : account.perform (.setStake ctx value) =
        (.ok (), account.step (.setStake ctx value)) := Prod.ext houtcome rfl
    obtain ⟨found, hfound, hstep⟩ :=
      (effect_of_perform_ok haccepted).eq_raisedTo sound loaded le
    cases admitted.coin_loaded.symm.trans hfound.coin_loaded
    rw [haccepted, hstep]

/-- Two increases lead where one leads. -/
theorem raisedTo_raisedTo (account : Account) (policy : UnstakePolicy) (coin : CoinPart)
    (sound : part.Sound) (lower : part.stake ≤ middle) (upper : middle ≤ value) :
    (account.raisedTo policy coin part middle).raisedTo policy
        (coin.holding (coin.balance - policy.payable part (middle - part.stake))
          (decide (0 < (policy.raiseTo part middle).pending)))
        (policy.raiseTo part middle) value =
      account.raisedTo policy coin part value := by
  have hpaid : coin.balance - policy.payable part (middle - part.stake) -
      policy.payable (policy.raiseTo part middle) (value - middle) =
        coin.balance - policy.payable part (value - part.stake) := by
    have := @UnstakePolicy.payable_raiseTo policy part _ _ sound lower upper
    omega
  simp only [raisedTo, UnstakePolicy.raiseTo_stake lower, CoinPart.balance_holding,
    CoinPart.holding_holding, hpaid, UnstakePolicy.raiseTo_raiseTo sound lower upper]

/-- Without a stake part no change of the stake is accepted. -/
theorem stake_loaded_of_setStake
    (accepted : account.perform (.setStake ctx value) = (.ok (), after)) :
    ∃ part, account.stake = some part := by
  cases effect_of_perform_ok accepted with
  | raise admitted | lower admitted | keep admitted => exact ⟨_, admitted.stake_loaded⟩

/-- What admits an increase admits every lesser one. -/
theorem Admitted.of_le (admitted : Admitted account ctx value coin part) (nonneg : 0 ≤ middle)
    (le : middle ≤ value) : Admitted account ctx middle coin part where
  coin_loaded := admitted.coin_loaded
  stake_loaded := admitted.stake_loaded
  value_nonneg := nonneg
  room := admitted.room
  in_range := admitted.in_range
  funded := Int.le_trans le admitted.funded

/-- The same funds admit a change of stake before an increase and after it. -/
theorem admitted_raisedTo_iff (sound : part.Sound) (le : part.stake ≤ middle)
    (first : Admitted account ctx middle coin part) :
    Admitted (account.raisedTo ctx.policy coin part middle) ctx value
        (coin.holding (coin.balance - ctx.policy.payable part (middle - part.stake))
          (decide (0 < (ctx.policy.raiseTo part middle).pending)))
        (ctx.policy.raiseTo part middle) ↔
      Admitted account ctx value coin part := by
  have hfunds := @UnstakePolicy.funds_raiseTo ctx.policy part _ sound le
  constructor
  · rintro ⟨-, -, hnonneg, hroom, hrange, hfunded⟩
    rw [CoinPart.balance_holding] at hrange hfunded
    exact ⟨first.coin_loaded, first.stake_loaded, hnonneg, hroom, by omega, by omega⟩
  · rintro ⟨-, -, hnonneg, hroom, hrange, hfunded⟩
    refine ⟨rfl, rfl, hnonneg, hroom, ?_, ?_⟩
    · rw [CoinPart.balance_holding]
      omega
    · rw [CoinPart.balance_holding]
      omega

/-- **A stake that is raised in two steps is raised as if by one**: both steps are accepted exactly
if the one is, and lead to the same account. -/
theorem raised_in_steps (sound : account.Sound)
    (lower : ∀ part, account.stake = some part → part.stake ≤ middle) (upper : middle ≤ value)
    (ctx : StakingContext) (after : Account) :
    account.perform (.setStake ctx value) = (.ok (), after) ↔
      ∃ between, account.perform (.setStake ctx middle) = (.ok (), between) ∧
        between.perform (.setStake ctx value) = (.ok (), after) := by
  cases hstake : account.stake with
  | none =>
      constructor
      · intro h
        obtain ⟨part, hloaded⟩ := stake_loaded_of_setStake h
        cases hstake.symm.trans hloaded
      · rintro ⟨between, h, -⟩
        obtain ⟨part, hloaded⟩ := stake_loaded_of_setStake h
        cases hstake.symm.trans hloaded
  | some part =>
      have hpart := sound.stake_sound part hstake
      have hlower := lower part hstake
      have hmiddle : (ctx.policy.raiseTo part middle).stake ≤ value := by
        rw [UnstakePolicy.raiseTo_stake hlower]
        exact upper
      constructor
      · intro h
        obtain ⟨coin, admitted, rfl⟩ :=
          (setStake_eq_ok_iff sound hstake (Int.le_trans hlower upper)).1 h
        have first := admitted.of_le (Int.le_trans hpart.stake_nonneg hlower) upper
        have hfirst := (setStake_eq_ok_iff sound hstake hlower).2 ⟨coin, first, rfl⟩
        have hbetween := sound.effect (effect_of_perform_ok hfirst)
        have second := (admitted_raisedTo_iff hpart hlower first).2 admitted
        exact ⟨_, hfirst, (setStake_eq_ok_iff hbetween rfl hmiddle).2 ⟨_, second,
          raisedTo_raisedTo account ctx.policy coin hpart hlower upper⟩⟩
      · rintro ⟨between, hfirst, hsecond⟩
        have hbetween := sound.effect (effect_of_perform_ok hfirst)
        obtain ⟨coin, first, rfl⟩ := (setStake_eq_ok_iff sound hstake hlower).1 hfirst
        obtain ⟨found, second, rfl⟩ := (setStake_eq_ok_iff hbetween rfl hmiddle).1 hsecond
        cases second.coin_loaded
        exact (setStake_eq_ok_iff sound hstake (Int.le_trans hlower upper)).2 ⟨coin,
          (admitted_raisedTo_iff hpart hlower first).1 second,
          (raisedTo_raisedTo account ctx.policy coin hpart hlower upper).symm⟩

/-- The first step takes back the slot that unlocks first and part of the next one; the second step
goes on there, takes back all that is left and 48 of the balance. -/
theorem raised_in_steps_mixed :
    ∃ between after, mixed.perform (.setStake ⟨5, ⟨9⟩, 5, 4⟩ 60) = (.ok (), between) ∧
      between.perform (.setStake ⟨5, ⟨9⟩, 5, 4⟩ 140) = (.ok (), after) ∧
      mixed.perform (.setStake ⟨5, ⟨9⟩, 5, 4⟩ 140) = (.ok (), after) ∧
      between.coin.map CoinPart.balance = some 100 ∧ after.coin.map CoinPart.balance = some 52 := by
  have whole : mixed.perform (.setStake ⟨5, ⟨9⟩, 5, 4⟩ 140) =
      (.ok (), mixed.step (.setStake ⟨5, ⟨9⟩, 5, 4⟩ 140)) := rfl
  have lower : ∀ part, mixed.stake = some part → part.stake ≤ 60 := by
    rintro _ ⟨⟩
    decide
  obtain ⟨between, hfirst, hsecond⟩ :=
    (raised_in_steps mixed_sound lower (by decide) ⟨5, ⟨9⟩, 5, 4⟩ _).1 whole
  have hbetween : between = mixed.step (.setStake ⟨5, ⟨9⟩, 5, 4⟩ 60) :=
    (congrArg Prod.snd hfirst).symm
  subst hbetween
  exact ⟨_, _, hfirst, hsecond, whole, rfl, rfl⟩

end Account

end StakeLedger
