/-
**Accounts stay sound.**

An account is sound if its balance is not negative and its stake part is sound.  Accounts whose
parts are made are sound, and no operation changes that, whichever revision it goes by.

Main definitions:

* `StakeLedger.Account.Sound` — sound accounts.

Main results:

* `StakeLedger.Account.run_sound` — after every run of operations the account is sound.
-/
import StakeLedger.Proofs.Effects
import StakeLedger.Proofs.Origin

set_option autoImplicit false

namespace StakeLedger.Account

/-- An account with no negative balance and with a sound stake part, as far as they are loaded. -/
structure Sound (account : Account) : Prop where
  balance_nonneg : ∀ coin, account.coin = some coin → 0 ≤ coin.balance
  stake_sound : ∀ part, account.stake = some part → part.Sound

variable {account after : Account} {operation : Operation}

theorem Made.sound (h : account.Made) : account.Sound where
  balance_nonneg coin hcoin := (h.coin_made coin hcoin).balance_nonneg
  stake_sound part hstake := (h.stake_made part hstake).wellFormed.toSound

/-- The coin part after the flag is set holds the balance from before. -/
theorem exists_coin_of_synced {coin : CoinPart} (h : account.synced.coin = some coin) :
    ∃ before, account.coin = some before ∧ before.balance = coin.balance := by
  have hbalance := synced_balance account
  rw [h, Option.map_some, eq_comm, Option.map_eq_some_iff] at hbalance
  exact hbalance

theorem Sound.synced (h : account.Sound) : account.synced.Sound where
  balance_nonneg coin hcoin := by
    obtain ⟨before, hbefore, hbalance⟩ := exists_coin_of_synced hcoin
    exact hbalance ▸ h.balance_nonneg before hbefore
  stake_sound part hstake := h.stake_sound part (by rwa [synced_stake] at hstake)

/-- The account stays sound with a sound stake part in its place. -/
theorem Sound.putStake (h : account.Sound) {part : StakePart} (hpart : part.Sound) :
    (account.putStake part).Sound where
  balance_nonneg := h.balance_nonneg
  stake_sound := by
    rintro _ ⟨⟩
    exact hpart

/-- The account stays sound with a balance that is not negative in its place. -/
theorem Sound.putCoin (h : account.Sound) {coin : CoinPart} (nonneg : 0 ≤ coin.balance) :
    (account.putCoin coin).Sound where
  balance_nonneg := by
    rintro _ ⟨⟩
    exact nonneg
  stake_sound := h.stake_sound

/-- Every effect keeps an account sound. -/
theorem Sound.effect (h : account.Sound) (effect : Effect account operation after) :
    after.Sound := by
  cases effect with
  | deposit loaded nonneg _ =>
      have := h.balance_nonneg _ loaded
      exact h.putCoin (Int.add_nonneg this nonneg)
  | withdraw loaded _ enough => exact h.putCoin (Int.sub_nonneg.2 enough)
  | @raise ctx value coin part admitted higher paid =>
      have hpart := h.stake_sound _ admitted.stake_loaded
      exact ((h.putCoin (Int.sub_nonneg.2 paid)).putStake
        (hpart.raise (by omega) ctx.policy)).synced
  | @lower ctx value coin part admitted lower _ =>
      have hpart := h.stake_sound _ admitted.stake_loaded
      have hvalue := admitted.value_nonneg
      exact (h.putStake (hpart.lower (by omega) (by omega) ctx.policy _ _)).synced
  | keep => exact h.synced
  | setHeight height => exact ⟨h.balance_nonneg, h.stake_sound⟩
  | @release revision coin part coin_loaded stake_loaded pos fits =>
      have hpart := h.stake_sound _ stake_loaded
      have := h.balance_nonneg _ coin_loaded
      exact ((h.putCoin (Int.add_nonneg this (Int.le_of_lt pos))).putStake
        (hpart.release (.ofRevision revision) account.height)).synced
  | @settle revision part stake_loaded _ =>
      have hpart := h.stake_sound _ stake_loaded
      exact (h.putStake (hpart.release (.ofRevision revision) account.height)).synced
  | unstaked => exact h
  | moveDelegated => exact ⟨h.balance_nonneg, h.stake_sound⟩
  | setDelegations => exact ⟨h.balance_nonneg, h.stake_sound⟩

/-- **After every run of operations the account is sound.** -/
theorem run_sound (h : account.Sound) (operations : List Operation) :
    (account.run operations).Sound :=
  run_induction Sound.effect h operations

theorem Sound.step (h : account.Sound) (operation : Operation) : (account.step operation).Sound :=
  run_sound h [operation]

end StakeLedger.Account
