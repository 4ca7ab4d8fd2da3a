/-
**Why an operation is refused.**

The reasons for which a change of stake or a release is refused are named here without the
operations that find them: in the order of the checks, and with the sums taken without a limit.
Once a change of stake passes them the balance always reaches for its share, so nothing fails after
the first amount has moved.

Main definitions:

* `StakeLedger.Account.stakeRefusal`, `StakeLedger.Account.releaseRefusal` — the reason for which a
  change of stake or a release is refused, if there is one.

Main results:

* `StakeLedger.Account.refused_iff` — the operations are refused for exactly these reasons, and what
  is refused changes nothing;
* `StakeLedger.Account.releaseRefusal_eq_none` — where the balance has room for all that an account
  holds, no release is refused.
-/
import StakeLedger.Proofs.Soundness

set_option autoImplicit false

namespace StakeLedger.Account

open AccountM

/-! ### Reasons -/

/-- Why the stake may not be changed to `value`: the first reason that applies. -/
def stakeRefusal (account : Account) (ctx : StakingContext) (value : Int) : Option LedgerError :=
  if value < 0 then some (.invalidParameter (.negativeStake value))
  else if ctx.policy = .slots ∧ ctx.slotMax = 0 then some (.invalidParameter .noSlots)
  else match account.coin, account.stake with
    | none, _ => some (.partNotLoaded .coin)
    | some _, none => some (.partNotLoaded .stake)
    | some coin, some part =>
        let available := coin.balance + part.stake + ctx.policy.pending part
        if Amount.greatest < available then some (.invalidParameter .fundsOverflow)
        else if available < value then some (.outOfBalance value available)
        else if value < part.stake ∧ maxHeight < ctx.height + ctx.lockPeriod then
          some (.invalidParameter .unlockHeightOverflow)
        else none

/-- Why what is unlocked may not be moved into the balance: there has to be something, and a coin
part that has room for it. -/
def releaseRefusal (account : Account) (revision : Revision) : Option LedgerError :=
  match account.stake with
  | none => none
  | some part =>
      let matured := (UnstakePolicy.ofRevision revision).matured part account.height
      if 0 < matured then
        match account.coin with
        | none => some (.partNotLoaded .coin)
        | some coin =>
            if Amount.greatest < coin.balance + matured then
              some (.invalidParameter (.depositOverflow matured))
            else none
      else none

/-- The outcome that goes with a reason, or with none. -/
def outcomeOf : Option LedgerError → Except LedgerError Unit
  | some error => .error error
  | none => .ok ()

theorem outcomeOf_eq_error_iff {reason : Option LedgerError} {error : LedgerError} :
    outcomeOf reason = .error error ↔ reason = some error := by
  cases reason with
  | none => simp [outcomeOf]
  | some found => simp [outcomeOf]

variable {account : Account}

/-! ### Changes of stake -/

/-- An integer that is not negative is an amount unless it is too great. -/
theorem inRange_iff_of_nonneg {n : Int} (nonneg : 0 ≤ n) :
    Amount.InRange n ↔ ¬ Amount.greatest < n := by
  have hleast : Amount.least < 0 := by decide
  unfold Amount.InRange
  omega

/-- Funds of the right signs are found unless their sum is too great. -/
theorem funds_of_nonneg {balance stake pending : Int} (hbalance : 0 ≤ balance) (hstake : 0 ≤ stake)
    (hpending : 0 ≤ pending) :
    funds balance stake pending =
      if Amount.greatest < balance + stake + pending then .error (.invalidParameter .fundsOverflow)
      else .ok (balance + stake + pending) := by
  rw [funds_eq]
  by_cases hover : Amount.greatest < balance + stake + pending
  · rw [if_pos hover, if_neg fun h => absurd h.2.2 (Int.not_le.2 hover)]
  · have hfirst := (inRange_iff_of_nonneg (Int.add_nonneg hbalance hstake)).2 (by omega)
    have hall := (inRange_iff_of_nonneg
      (Int.add_nonneg (Int.add_nonneg hbalance hstake) hpending)).2 hover
    rw [if_neg hover, if_pos ⟨hfirst, hall⟩]

/-- The balance reaches for an increase that all funds together reach for. -/
theorem withdraw_payable (sound : account.Sound) {ctx : StakingContext} {value : Int}
    {coin : CoinPart} {part : StakePart} (admitted : Admitted account ctx value coin part) :
    ctx.policy.payable part (value - part.stake) ≤ coin.balance := by
  have hfunded := admitted.funded
  exact UnstakePolicy.payable_le (sound.balance_nonneg coin admitted.coin_loaded) (by omega)

/-- Once a change of stake is admitted, only the height at which it unlocks is left to refuse it. -/
theorem moveStake_outcome (sound : account.Sound) {ctx : StakingContext} {value : Int}
    {coin : CoinPart} {part : StakePart} (admitted : Admitted account ctx value coin part) :
    ((do
        moveStake ctx part.stake value
        change synced : AccountM Unit) account).1 =
      outcomeOf
        (if value < part.stake ∧ maxHeight < ctx.height + ctx.lockPeriod then
          some (.invalidParameter .unlockHeightOverflow)
        else none) := by
  have hstake := admitted.stake_loaded
  rcases Int.lt_trichotomy part.stake value with higher | same | lower
  · rw [moveStake_of_higher admitted.coin_loaded hstake higher,
      if_neg (Int.not_lt.2 (withdraw_payable sound admitted)), if_neg (by omega)]
    rfl
  · subst same
    rw [moveStake_of_same, if_neg (by omega)]
    rfl
  · rw [moveStake_of_lower hstake lower]
    by_cases hover : maxHeight < ctx.height + ctx.lockPeriod
    · have hunlock : maxHeight < ctx.unlockHeight := hover
      rw [if_pos hunlock, if_pos ⟨lower, hover⟩]
      rfl
    · have hunlock : ¬ maxHeight < ctx.unlockHeight := hover
      rw [if_neg hunlock, if_neg fun h => hover h.2]
      rfl

theorem setStake_outcome (sound : account.Sound) (ctx : StakingContext) (value : Int) :
    (setStake ctx value account).1 = outcomeOf (account.stakeRefusal ctx value) := by
  rw [setStake_apply, stakeRefusal]
  by_cases hneg : value < 0
  · rw [if_pos hneg, if_pos hneg]
    rfl
  rw [if_neg hneg, if_neg hneg]
  by_cases hroom : ctx.policy = .slots ∧ ctx.slotMax = 0
  · rw [if_pos hroom, if_pos hroom]
    rfl
  rw [if_neg hroom, if_neg hroom]
  cases hcoin : account.coin with
  | none => rfl
  | some coin =>
      cases hstake : account.stake with
      | none => rfl
      | some part =>
          have hpart := sound.stake_sound part hstake
          -- nothing is negative, so the checked sums fail exactly where the whole sum is too great
          have hfunds := funds_of_nonneg (sound.balance_nonneg coin hcoin) hpart.stake_nonneg
            (UnstakePolicy.pending_nonneg hpart ctx.policy)
          by_cases hover :
            Amount.greatest < coin.balance + part.stake + ctx.policy.pending part
          · rw [if_pos hover] at hfunds
            simp only [hfunds, if_pos hover]
            rfl
          rw [if_neg hover] at hfunds
          simp only [hfunds, if_neg hover]
          by_cases hshort : coin.balance + part.stake + ctx.policy.pending part < value
          · rw [if_pos hshort, if_pos hshort]
            rfl
          rw [if_neg hshort, if_neg hshort]
          exact moveStake_outcome sound
            { coin_loaded := hcoin
              stake_loaded := hstake
              value_nonneg := by omega
              room := fun hslots hzero => hroom ⟨hslots, hzero⟩
              in_range := by omega
              funded := by omega }

/-- Nothing refuses an increase that is admitted. -/
theorem stakeRefusal_eq_none {ctx : StakingContext} {value : Int} {coin : CoinPart}
    {part : StakePart} (admitted : Admitted account ctx value coin part)
    (le : part.stake ≤ value) : account.stakeRefusal ctx value = none := by
  have hnonneg := admitted.value_nonneg
  have hrange := admitted.in_range
  have hfunded := admitted.funded
  rw [stakeRefusal, admitted.coin_loaded, admitted.stake_loaded, if_neg (by omega),
    if_neg fun hnone => admitted.room hnone.1 hnone.2]
  dsimp only
  rw [if_neg (by omega), if_neg (by omega), if_neg (by omega)]

/-- The part of an increase that the balance has to pay is always paid. -/
theorem withdraw_outcome (sound : account.Sound) {ctx : StakingContext} {value : Int}
    {coin : CoinPart} {part : StakePart} (admitted : Admitted account ctx value coin part) :
    (withdraw (ctx.policy.payable part (value - part.stake)) account).1 = .ok () := by
  have hpay := UnstakePolicy.payable_nonneg ctx.policy part (value - part.stake)
  rw [withdraw_apply admitted.coin_loaded (Int.not_lt.2 hpay),
    if_neg (Int.not_lt.2 (withdraw_payable sound admitted))]

/-! ### Releases -/

theorem normalize_outcome (sound : account.Sound) (revision : Revision) :
    (normalize revision account).1 = outcomeOf (account.releaseRefusal revision) := by
  rw [releaseRefusal]
  cases hstake : account.stake with
  | none =>
      rw [normalize_of_unstaked hstake]
      rfl
  | some part =>
      change _ = outcomeOf (if _ then _ else _)
      by_cases hpos : 0 < (UnstakePolicy.ofRevision revision).matured part account.height
      · rw [normalize_of_matured hstake hpos, if_pos hpos]
        cases hcoin : account.coin with
        | none => rfl
        | some coin =>
            have hbalance := sound.balance_nonneg coin hcoin
            have hrange := inRange_iff_of_nonneg (Int.add_nonneg hbalance (Int.le_of_lt hpos))
            change Prod.fst (if _ then _ else _) = outcomeOf (if _ then _ else _)
            by_cases hover : Amount.greatest <
                coin.balance + (UnstakePolicy.ofRevision revision).matured part account.height
            · rw [if_neg fun h => hrange.1 h hover, if_pos hover]
              rfl
            · rw [if_pos (hrange.2 hover), if_neg hover]
              rfl
      · rw [normalize_of_settled hstake hpos, if_neg hpos]
        rfl

/-- Nothing refuses a release where the balance has room for all that the account holds. -/
theorem releaseRefusal_eq_none (sound : account.Sound) {coin : CoinPart} {part : StakePart}
    (coin_loaded : account.coin = some coin) (loaded : account.stake = some part)
    (fits : coin.balance + part.stake + part.pending ≤ Amount.greatest) (revision : Revision) :
    account.releaseRefusal revision = none := by
  have hpart := sound.stake_sound part loaded
  have hstake := hpart.stake_nonneg
  have hle := UnstakePolicy.matured_le_pending hpart (.ofRevision revision) account.height
  have hroom : ¬ Amount.greatest <
      coin.balance + (UnstakePolicy.ofRevision revision).matured part account.height := by
    omega
  simp only [releaseRefusal, loaded, coin_loaded, if_neg hroom, ite_self]

/-- A release that nothing refuses is accepted. -/
theorem perform_normalize_of_releaseRefusal (sound : account.Sound) {revision : Revision}
    (h : account.releaseRefusal revision = none) :
    account.perform (.normalize revision) = (.ok (), account.step (.normalize revision)) := by
  have houtcome := normalize_outcome sound revision
  rw [h] at houtcome
  exact Prod.ext houtcome rfl

/-! ### All operations -/

/-- **Changes of stake and releases are refused for exactly the reasons named, the balance always
pays its share of an increase, and whatever is refused leaves the account as it was.** -/
theorem refused_iff (made : account.Made) (operations : List Operation) :
    (∀ ctx value error, ((account.run operations).perform (.setStake ctx value)).1 = .error error ↔
      (account.run operations).stakeRefusal ctx value = some error) ∧
    (∀ ctx value coin part, (account.run operations).Admitted ctx value coin part →
      (withdraw (ctx.policy.payable part (value - part.stake)) (account.run operations)).1 =
        .ok ()) ∧
    (∀ revision error, ((account.run operations).perform (.normalize revision)).1 = .error error ↔
      (account.run operations).releaseRefusal revision = some error) ∧
    ∀ operation error after, (account.run operations).perform operation = (.error error, after) →
      after = account.run operations := by
  have sound := run_sound made.sound operations
  refine ⟨fun ctx value error => ?_, fun ctx value coin part admitted => ?_,
    fun revision error => ?_, fun operation error after h => ?_⟩
  · change (setStake ctx value (account.run operations)).1 = _ ↔ _
    rw [setStake_outcome sound, outcomeOf_eq_error_iff]
  · exact withdraw_outcome sound admitted
  · change (normalize revision (account.run operations)).1 = _ ↔ _
    rw [normalize_outcome sound, outcomeOf_eq_error_iff]
  · exact eq_of_perform_error h

/-- All funds together are 200: a stake of 201 is refused, and for a stake of 200 the balance pays
all that it holds. -/
theorem refused_small :
    ((small.run [.deposit 20]).perform (.setStake ⟨5, ⟨9⟩, 20, 2⟩ 201)).1 =
        .error (.outOfBalance 201 200) ∧
      (small.run [.deposit 20]).step (.setStake ⟨5, ⟨9⟩, 20, 2⟩ 201) = small.run [.deposit 20] ∧
      (withdraw 120 (small.run [.deposit 20])).1 = .ok () := by
  obtain ⟨hstake, hwithdraw, -, hsame⟩ := refused_iff small_made [.deposit 20]
  refine ⟨(hstake _ _ _).2 rfl, ?_, ?_⟩
  · exact hsame (.setStake ⟨5, ⟨9⟩, 20, 2⟩ 201) (.outOfBalance 201 200) _ rfl
  · have hpaid := hwithdraw ⟨5, ⟨9⟩, 20, 2⟩ 200 { CoinPart.empty with balance := 120 }
      { StakePart.empty with stake := 50, unstake := 30, unstakeHeight := 10 }
      { coin_loaded := rfl
        stake_loaded := rfl
        value_nonneg := by decide
        room := by decide
        in_range := by decide
        funded := by decide }
    have hpay : UnstakePolicy.payable .slots
        { StakePart.empty with stake := 50, unstake := 30, unstakeHeight := 10 } (200 - 50) =
          120 := by
      decide
    exact hpay ▸ hpaid

end StakeLedger.Account
