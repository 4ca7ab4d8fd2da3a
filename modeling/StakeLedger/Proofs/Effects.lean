/-
**What the operations on an account do.**

An operation changes the account in place and may fail at several points.  Here it is run once and
for all: either it is refused and the account is what it was, or it is accepted and has one of a few
effects, each with the conditions under which it comes about.  What is proved elsewhere about runs
of operations looks at the effects only.

Main definitions:

* `StakeLedger.Account.Admitted` — the conditions for a change of stake that are checked first;
* `StakeLedger.Account.raised`, `StakeLedger.Account.lowered`, `StakeLedger.Account.released` — the
  accounts after a change of stake and after a release;
* `StakeLedger.Account.Effect` — **what an accepted operation does**;
* `StakeLedger.Account.StakeMove` — what it does to the stake part;
* `StakeLedger.Account.Settled` — outcomes that are a refusal without a change, or an effect.

Main results:

* `StakeLedger.Account.setStake_apply`, `StakeLedger.Account.normalize_apply` — the conditions of
  the two operations that move a stake, in the order of their checks;
* `StakeLedger.Account.perform_settled` — an operation is refused and changes nothing, or is
  accepted and has an effect;
* `StakeLedger.Account.run_induction` — what every effect keeps holds after every run.
-/
import StakeLedger.Proofs.Pending
import StakeLedger.Account.Basic

set_option autoImplicit false

namespace StakeLedger

namespace Account

open AccountM Stateful

/-! ### Effects -/

/-- The conditions for a change of stake that are checked before anything changes. -/
structure Admitted (account : Account) (ctx : StakingContext) (value : Int) (coin : CoinPart)
    (part : StakePart) : Prop where
  coin_loaded : account.coin = some coin
  stake_loaded : account.stake = some part
  value_nonneg : 0 ≤ value
  room : ctx.policy = .slots → ctx.slotMax ≠ 0
  in_range : coin.balance + part.stake + ctx.policy.pending part ≤ Amount.greatest
  funded : value ≤ coin.balance + part.stake + ctx.policy.pending part

/-- The account with its stake raised to `value`. -/
def raised (account : Account) (policy : UnstakePolicy) (coin : CoinPart) (part : StakePart)
    (value : Int) : Account :=
  let delta := value - part.stake
  synced { account with
    coin := some { coin with balance := coin.balance - policy.payable part delta }
    stake := some (policy.raise part delta) }

/-- The account with its stake lowered to `value`. -/
def lowered (account : Account) (ctx : StakingContext) (part : StakePart) (value : Int) :
    Account :=
  synced { account with
    stake := some (ctx.policy.lower part (part.stake - value) ctx.unlockHeight ctx.slotMax) }

/-- The account with what is unlocked moved from the stake part into the coin part. -/
def released (account : Account) (policy : UnstakePolicy) (coin : Option CoinPart)
    (part : StakePart) : Account :=
  synced { account with coin, stake := some (policy.release part account.height) }

/-- **What an accepted operation does.** -/
inductive Effect (account : Account) : Operation → Account → Prop
  | deposit {coin : CoinPart} {amount : Int} (loaded : account.coin = some coin)
      (nonneg : 0 ≤ amount) (fits : Amount.InRange (coin.balance + amount)) :
      Effect account (.deposit amount)
        { account with coin := some { coin with balance := coin.balance + amount } }
  | withdraw {coin : CoinPart} {amount : Int} (loaded : account.coin = some coin)
      (nonneg : 0 ≤ amount) (enough : amount ≤ coin.balance) :
      Effect account (.withdraw amount)
        { account with coin := some { coin with balance := coin.balance - amount } }
  | raise {ctx : StakingContext} {value : Int} {coin : CoinPart} {part : StakePart}
      (admitted : Admitted account ctx value coin part) (higher : part.stake < value)
      (paid : ctx.policy.payable part (value - part.stake) ≤ coin.balance) :
      Effect account (.setStake ctx value) (account.raised ctx.policy coin part value)
  | lower {ctx : StakingContext} {value : Int} {coin : CoinPart} {part : StakePart}
      (admitted : Admitted account ctx value coin part) (lower : value < part.stake)
      (height_le : ctx.unlockHeight ≤ maxHeight) :
      Effect account (.setStake ctx value) (account.lowered ctx part value)
  | keep {ctx : StakingContext} {value : Int} {coin : CoinPart} {part : StakePart}
      (admitted : Admitted account ctx value coin part) (same : value = part.stake) :
      Effect account (.setStake ctx value) account.synced
  | setHeight (height : Nat) : Effect account (.setHeight height) { account with height }
  | release {revision : Revision} {coin : CoinPart} {part : StakePart}
      (coin_loaded : account.coin = some coin) (stake_loaded : account.stake = some part)
      (pos : 0 < (UnstakePolicy.ofRevision revision).matured part account.height)
      (fits : Amount.InRange
        (coin.balance + (UnstakePolicy.ofRevision revision).matured part account.height)) :
      Effect account (.normalize revision)
        (account.released (.ofRevision revision)
          (some { coin with
            balance :=
              coin.balance + (UnstakePolicy.ofRevision revision).matured part account.height })
          part)
  | settle {revision : Revision} {part : StakePart} (stake_loaded : account.stake = some part)
      (none_matured : (UnstakePolicy.ofRevision revision).matured part account.height ≤ 0) :
      Effect account (.normalize revision)
        (account.released (.ofRevision revision) account.coin part)
  | unstaked {revision : Revision} (unloaded : account.stake = none) :
      Effect account (.normalize revision) account
  | moveDelegated {delta : Int} {part moved : DelegationPart}
      (loaded : account.delegationPart = .ok part)
      (accepted : part.moveDelegated delta = .ok moved) :
      Effect account (.moveDelegated delta) { account with delegation := some moved }
  | setDelegations {delegations : List Delegation} {part replaced : DelegationPart}
      (loaded : account.delegationPart = .ok part)
      (accepted : part.setDelegations delegations = .ok replaced) :
      Effect account (.setDelegations delegations) { account with delegation := some replaced }

/-- What an accepted operation does to the stake part, if it does anything. -/
inductive StakeMove (account : Account) : Operation → StakePart → StakePart → Prop
  | raise {ctx : StakingContext} {value : Int} {coin : CoinPart} {part : StakePart}
      (admitted : Admitted account ctx value coin part) (higher : part.stake < value)
      (paid : ctx.policy.payable part (value - part.stake) ≤ coin.balance) :
      StakeMove account (.setStake ctx value) part (ctx.policy.raise part (value - part.stake))
  | lower {ctx : StakingContext} {value : Int} {coin : CoinPart} {part : StakePart}
      (admitted : Admitted account ctx value coin part) (lower : value < part.stake) :
      StakeMove account (.setStake ctx value) part
        (ctx.policy.lower part (part.stake - value) ctx.unlockHeight ctx.slotMax)
  | release {revision : Revision} {part : StakePart} :
      StakeMove account (.normalize revision) part
        ((UnstakePolicy.ofRevision revision).release part account.height)

/-- An effect leaves the stake part as it is, or moves it. -/
theorem Effect.stake_moves {account after : Account} {operation : Operation}
    (effect : Effect account operation after) :
    after.stake = account.stake ∨
      ∃ part moved, account.stake = some part ∧ after.stake = some moved ∧
        StakeMove account operation part moved := by
  cases effect with
  | deposit | withdraw | setHeight | unstaked | moveDelegated | setDelegations =>
      exact Or.inl rfl
  | keep => exact Or.inl (synced_stake account)
  | raise admitted higher paid =>
      exact Or.inr ⟨_, _, admitted.stake_loaded, synced_stake _, .raise admitted higher paid⟩
  | lower admitted lower _ =>
      exact Or.inr ⟨_, _, admitted.stake_loaded, synced_stake _, .lower admitted lower⟩
  | release _ stake_loaded _ _ =>
      exact Or.inr ⟨_, _, stake_loaded, synced_stake _, .release⟩
  | settle stake_loaded _ => exact Or.inr ⟨_, _, stake_loaded, synced_stake _, .release⟩

/-! ### Running the operations -/

variable {account : Account}

theorem coinPart_of_loaded {coin : CoinPart} (h : account.coin = some coin) :
    account.coinPart = .ok coin := by
  rw [coinPart, h]

theorem stakePart_of_loaded {part : StakePart} (h : account.stake = some part) :
    account.stakePart = .ok part := by
  rw [stakePart, h]

theorem withdraw_apply {coin : CoinPart} {amount : Int} (hcoin : account.coin = some coin)
    (nonneg : ¬ amount < 0) :
    withdraw amount account =
      if coin.balance < amount then (.error (.outOfBalance amount coin.balance), account)
      else
        (.ok (), { account with
          coin := some { coin with balance := coin.balance - amount } }) := by
  have hloaded := coinPart_of_loaded hcoin
  have hcoin' := coin.withdraw_of_nonneg nonneg
  split
  · next hshort => exact update_of_error hloaded (by rw [hcoin', if_pos hshort])
  · next henough => exact update_of_ok hloaded (by rw [hcoin', if_neg henough])

theorem deposit_apply {coin : CoinPart} {amount : Int} (hcoin : account.coin = some coin)
    (nonneg : ¬ amount < 0) :
    deposit amount account =
      if Amount.InRange (coin.balance + amount) then
        (.ok (), { account with
          coin := some { coin with balance := coin.balance + amount } })
      else (.error (.invalidParameter (.depositOverflow amount)), account) := by
  have hloaded := coinPart_of_loaded hcoin
  have hcoin' := coin.deposit_of_nonneg nonneg
  split
  · next hfits => exact update_of_ok hloaded (by rw [hcoin', if_pos hfits])
  · next hover => exact update_of_error hloaded (by rw [hcoin', if_neg hover])

/-- An increase fails only where the balance does not reach; the amount to pay is never negative. -/
theorem raiseStake_apply {coin : CoinPart} {part : StakePart} (hcoin : account.coin = some coin)
    (hstake : account.stake = some part) (policy : UnstakePolicy) (delta : Int) :
    raiseStake policy delta account =
      if coin.balance < policy.payable part delta then
        (.error (.outOfBalance (policy.payable part delta) coin.balance), account)
      else
        (.ok (), { account with
          coin := some { coin with balance := coin.balance - policy.payable part delta }
          stake := some (policy.raise part delta) }) := by
  have hpay := UnstakePolicy.payable_nonneg policy part delta
  have hwithdraw := withdraw_apply hcoin (Int.not_lt.2 hpay)
  rw [raiseStake, bind_of_ok (view_eq (stakePart_of_loaded hstake))]
  split
  · next hshort =>
      -- nothing was changed before the withdrawal
      rw [if_pos hshort] at hwithdraw
      exact bind_of_error hwithdraw _
  · next hpaid =>
      rw [if_neg hpaid] at hwithdraw
      rw [bind_of_ok hwithdraw]
      exact update_of_ok (stakePart_of_loaded hstake) rfl

theorem lowerStake_apply {part : StakePart} (hstake : account.stake = some part)
    (ctx : StakingContext) (released : Int) :
    lowerStake ctx released account =
      if maxHeight < ctx.unlockHeight then
        (.error (.invalidParameter .unlockHeightOverflow), account)
      else
        (.ok (), { account with
          stake := some (ctx.policy.lower part released ctx.unlockHeight ctx.slotMax) }) := by
  rw [lowerStake]
  split
  · next hover => exact bind_of_error (refuseIf_of hover) _
  · next hle =>
      rw [bind_of_ok (refuseIf_of_not hle)]
      exact update_of_ok (stakePart_of_loaded hstake) rfl

/-- The account after an increase, unless the balance does not reach. -/
theorem moveStake_of_higher {ctx : StakingContext} {value : Int} {coin : CoinPart}
    {part : StakePart} (hcoin : account.coin = some coin) (hstake : account.stake = some part)
    (higher : part.stake < value) :
    (do
      moveStake ctx part.stake value
      change synced : AccountM Unit) account =
      if coin.balance < ctx.policy.payable part (value - part.stake) then
        (.error (.outOfBalance (ctx.policy.payable part (value - part.stake)) coin.balance),
          account)
      else (.ok (), account.raised ctx.policy coin part value) := by
  have hraise := raiseStake_apply hcoin hstake ctx.policy (value - part.stake)
  rw [moveStake, if_pos higher]
  split
  · next hshort =>
      rw [if_pos hshort] at hraise
      exact bind_of_error hraise _
  · next hpaid =>
      rw [if_neg hpaid] at hraise
      exact bind_of_ok hraise _

/-- The account after a decrease, unless what becomes pending never unlocks. -/
theorem moveStake_of_lower {ctx : StakingContext} {value : Int} {part : StakePart}
    (hstake : account.stake = some part) (lower : value < part.stake) :
    (do
      moveStake ctx part.stake value
      change synced : AccountM Unit) account =
      if maxHeight < ctx.unlockHeight then
        (.error (.invalidParameter .unlockHeightOverflow), account)
      else (.ok (), account.lowered ctx part value) := by
  have hlower := lowerStake_apply hstake ctx (part.stake - value)
  rw [moveStake, if_neg (by omega), if_pos lower]
  split
  · next hover =>
      rw [if_pos hover] at hlower
      exact bind_of_error hlower _
  · next hle =>
      rw [if_neg hle] at hlower
      exact bind_of_ok hlower _

theorem moveStake_of_same (ctx : StakingContext) (value : Int) :
    (do
      moveStake ctx value value
      change synced : AccountM Unit) account = (.ok (), account.synced) := by
  rw [moveStake, if_neg (Int.lt_irrefl _), if_neg (Int.lt_irrefl _)]
  rfl

/-- A change of stake checks its conditions in order and then moves the stake. -/
theorem setStake_apply (ctx : StakingContext) (value : Int) (account : Account) :
    setStake ctx value account =
      if value < 0 then (.error (.invalidParameter (.negativeStake value)), account)
      else if ctx.policy = .slots ∧ ctx.slotMax = 0 then
        (.error (.invalidParameter .noSlots), account)
      else match account.coin, account.stake with
        | none, _ => (.error (.partNotLoaded .coin), account)
        | some _, none => (.error (.partNotLoaded .stake), account)
        | some coin, some part =>
            match funds coin.balance part.stake (ctx.policy.pending part) with
            | .error error => (.error error, account)
            | .ok available =>
                if available < value then (.error (.outOfBalance value available), account)
                else (do
                  moveStake ctx part.stake value
                  change synced : AccountM Unit) account := by
  unfold setStake
  split
  · next hneg => exact bind_of_error (refuseIf_of hneg) _
  · next hneg =>
      rw [bind_of_ok (refuseIf_of_not hneg)]
      split
      · next hroom => exact bind_of_error (refuseIf_of hroom) _
      · next hroom =>
          rw [bind_of_ok (refuseIf_of_not hroom)]
          cases hcoin : account.coin with
          | none => exact bind_of_error (view_eq (by rw [coinPart, hcoin])) _
          | some coin =>
              rw [bind_of_ok (view_eq (coinPart_of_loaded hcoin))]
              cases hstake : account.stake with
              | none => exact bind_of_error (view_eq (by rw [stakePart, hstake])) _
              | some part =>
                  rw [bind_of_ok (view_eq (stakePart_of_loaded hstake))]
                  change _ = match funds coin.balance part.stake (ctx.policy.pending part) with
                    | .error error => _
                    | .ok available => _
                  cases funds coin.balance part.stake (ctx.policy.pending part) with
                  | error error => exact bind_of_error (ofResult_eq rfl) _
                  | ok available =>
                      rw [bind_of_ok (ofResult_eq rfl)]
                      change _ = if available < value then _ else _
                      split
                      · next hshort => exact bind_of_error (refuseIf_of hshort) _
                      · next hfunded => exact bind_of_ok (refuseIf_of_not hfunded) _

/-- Without a stake part there is nothing to release. -/
theorem normalize_of_unstaked (h : account.stake = none) (revision : Revision) :
    normalize revision account = (.ok (), account) := by
  rw [normalize, bind_of_ok (rfl : (get : AccountM Account) account = (.ok account, account)), h]
  rfl

/-- A release is paid in first, and then leaves the stake part. -/
theorem normalize_apply {part : StakePart} (h : account.stake = some part) (revision : Revision) :
    normalize revision account = (do
      payIn ((UnstakePolicy.ofRevision revision).matured part account.height)
      change (putStake ((UnstakePolicy.ofRevision revision).release part account.height))
      change synced : AccountM Unit) account := by
  rw [normalize, bind_of_ok (rfl : (get : AccountM Account) account = (.ok account, account)), h]
  simp only [UnstakePolicy.releaseMatured_snd]

theorem normalize_of_settled {part : StakePart} {revision : Revision}
    (h : account.stake = some part)
    (settled : ¬ 0 < (UnstakePolicy.ofRevision revision).matured part account.height) :
    normalize revision account =
      (.ok (), account.released (.ofRevision revision) account.coin part) := by
  have hpay : payIn ((UnstakePolicy.ofRevision revision).matured part account.height) account =
      (.ok (), account) := by
    rw [payIn, if_neg settled]
    rfl
  rw [normalize_apply h, bind_of_ok hpay]
  exact bind_of_ok (change_apply _ _) _

/-- What is unlocked needs a coin part that has room for it. -/
theorem normalize_of_matured {part : StakePart} {revision : Revision}
    (h : account.stake = some part)
    (pos : 0 < (UnstakePolicy.ofRevision revision).matured part account.height) :
    normalize revision account =
      match account.coin with
      | none => (.error (.partNotLoaded .coin), account)
      | some coin =>
          let matured := (UnstakePolicy.ofRevision revision).matured part account.height
          if Amount.InRange (coin.balance + matured) then
            (.ok (), account.released (.ofRevision revision)
              (some { coin with balance := coin.balance + matured }) part)
          else (.error (.invalidParameter (.depositOverflow matured)), account) := by
  have hpay : payIn ((UnstakePolicy.ofRevision revision).matured part account.height) account =
      deposit ((UnstakePolicy.ofRevision revision).matured part account.height) account := by
    rw [payIn, if_pos pos]
  rw [normalize_apply h]
  cases hcoin : account.coin with
  | none =>
      exact bind_of_error (hpay.trans (update_of_unseen (by rw [coinPart, hcoin]))) _
  | some coin =>
      rw [deposit_apply hcoin (by omega)] at hpay
      change _ = if Amount.InRange _ then _ else _
      split
      · next hfits =>
          rw [if_pos hfits] at hpay
          rw [bind_of_ok hpay]
          exact bind_of_ok (change_apply _ _) _
      · next hover =>
          rw [if_neg hover] at hpay
          exact bind_of_error hpay _

/-! ### Every operation is refused or has an effect -/

/-- An operation that is refused and changes nothing, or that is accepted and has an effect. -/
def Settled (account : Account) (operation : Operation)
    (outcome : Except LedgerError Unit × Account) : Prop :=
  (∃ error, outcome = (.error error, account)) ∨
    ∃ after, outcome = (.ok (), after) ∧ Effect account operation after

theorem deposit_settled (amount : Int) :
    Settled account (.deposit amount) (deposit amount account) := by
  cases hcoin : account.coin with
  | none => exact Or.inl ⟨_, update_of_unseen (by rw [coinPart, hcoin])⟩
  | some coin =>
      by_cases hneg : amount < 0
      · exact Or.inl ⟨_, update_of_error (coinPart_of_loaded hcoin)
          (by rw [CoinPart.deposit, if_pos hneg])⟩
      · rw [deposit_apply hcoin hneg]
        split
        · next hfits => exact Or.inr ⟨_, rfl, .deposit hcoin (by omega) hfits⟩
        · exact Or.inl ⟨_, rfl⟩

theorem withdraw_settled (amount : Int) :
    Settled account (.withdraw amount) (withdraw amount account) := by
  cases hcoin : account.coin with
  | none => exact Or.inl ⟨_, update_of_unseen (by rw [coinPart, hcoin])⟩
  | some coin =>
      by_cases hneg : amount < 0
      · exact Or.inl ⟨_, update_of_error (coinPart_of_loaded hcoin)
          (by rw [CoinPart.withdraw, if_pos hneg])⟩
      · rw [withdraw_apply hcoin hneg]
        split
        · exact Or.inl ⟨_, rfl⟩
        · next henough => exact Or.inr ⟨_, rfl, .withdraw hcoin (by omega) (by omega)⟩

/-- The funds are found where both of their sums are amounts. -/
theorem funds_eq (balance stake pending : Int) :
    funds balance stake pending =
      if Amount.InRange (balance + stake) ∧ Amount.InRange (balance + stake + pending) then
        .ok (balance + stake + pending)
      else .error (.invalidParameter .fundsOverflow) := by
  simp only [funds, Amount.sum?, List.foldlM_cons, List.foldlM_nil, Amount.add?]
  by_cases hfirst : Amount.InRange (balance + stake)
  · by_cases hall : Amount.InRange (balance + stake + pending)
    · simp [hfirst, hall]
    · simp [hfirst, hall]
  · simp [hfirst]

theorem funds_eq_ok_iff {balance stake pending available : Int} :
    funds balance stake pending = .ok available ↔
      (Amount.InRange (balance + stake) ∧ Amount.InRange (balance + stake + pending)) ∧
        balance + stake + pending = available := by
  rw [funds_eq]
  split
  · next h => simp [h]
  · next h => simp [h]

/-- Once a change of stake is admitted, moving the stake is what remains. -/
theorem moveStake_settled {ctx : StakingContext} {value : Int} {coin : CoinPart}
    {part : StakePart} (admitted : Admitted account ctx value coin part) :
    Settled account (.setStake ctx value)
      ((do
        moveStake ctx part.stake value
        change synced : AccountM Unit) account) := by
  have hstake := admitted.stake_loaded
  rcases Int.lt_trichotomy part.stake value with higher | same | lower
  · rw [moveStake_of_higher admitted.coin_loaded hstake higher]
    split
    · exact Or.inl ⟨_, rfl⟩
    · next hpaid => exact Or.inr ⟨_, rfl, .raise admitted higher (by omega)⟩
  · subst same
    rw [moveStake_of_same]
    exact Or.inr ⟨_, rfl, .keep admitted rfl⟩
  · rw [moveStake_of_lower hstake lower]
    split
    · exact Or.inl ⟨_, rfl⟩
    · next hle => exact Or.inr ⟨_, rfl, .lower admitted lower (by omega)⟩

theorem setStake_settled (ctx : StakingContext) (value : Int) :
    Settled account (.setStake ctx value) (setStake ctx value account) := by
  rw [setStake_apply]
  split
  · exact Or.inl ⟨_, rfl⟩
  · next hneg =>
      split
      · exact Or.inl ⟨_, rfl⟩
      · next hroom =>
          split
          · exact Or.inl ⟨_, rfl⟩
          · exact Or.inl ⟨_, rfl⟩
          · next coin part hcoin hstake =>
              split
              · exact Or.inl ⟨_, rfl⟩
              · next available hfunds =>
                  obtain ⟨⟨-, hrange⟩, rfl⟩ := funds_eq_ok_iff.1 hfunds
                  split
                  · exact Or.inl ⟨_, rfl⟩
                  · next hfunded =>
                      exact moveStake_settled
                        { coin_loaded := hcoin
                          stake_loaded := hstake
                          value_nonneg := by omega
                          room := fun hslots hzero => hroom ⟨hslots, hzero⟩
                          in_range := hrange.2
                          funded := by omega }

theorem normalize_settled (revision : Revision) :
    Settled account (.normalize revision) (normalize revision account) := by
  cases hstake : account.stake with
  | none => exact Or.inr ⟨_, normalize_of_unstaked hstake revision, .unstaked hstake⟩
  | some part =>
      by_cases hpos : 0 < (UnstakePolicy.ofRevision revision).matured part account.height
      · rw [normalize_of_matured hstake hpos]
        split
        · exact Or.inl ⟨_, rfl⟩
        · next coin hcoin =>
            change Settled account _ (if Amount.InRange _ then _ else _)
            split
            · next hfits => exact Or.inr ⟨_, rfl, .release hcoin hstake hpos hfits⟩
            · exact Or.inl ⟨_, rfl⟩
      · rw [normalize_of_settled hstake hpos]
        exact Or.inr ⟨_, rfl, .settle hstake (by omega)⟩

theorem moveDelegated_settled (delta : Int) :
    Settled account (.moveDelegated delta) (moveDelegated delta account) := by
  cases hpart : account.delegationPart with
  | error error => exact Or.inl ⟨_, update_of_unseen hpart⟩
  | ok part =>
      cases hmoved : part.moveDelegated delta with
      | error error => exact Or.inl ⟨_, update_of_error hpart hmoved⟩
      | ok moved => exact Or.inr ⟨_, update_of_ok hpart hmoved, .moveDelegated hpart hmoved⟩

theorem setDelegations_settled (delegations : List Delegation) :
    Settled account (.setDelegations delegations) (setDelegations delegations account) := by
  cases hpart : account.delegationPart with
  | error error => exact Or.inl ⟨_, update_of_unseen hpart⟩
  | ok part =>
      cases hreplaced : part.setDelegations delegations with
      | error error => exact Or.inl ⟨_, update_of_error hpart hreplaced⟩
      | ok replaced =>
          exact Or.inr ⟨_, update_of_ok hpart hreplaced, .setDelegations hpart hreplaced⟩

/-- **Every operation either is refused and changes nothing, or is accepted and has an effect.** -/
theorem perform_settled (account : Account) (operation : Operation) :
    Settled account operation (account.perform operation) := by
  cases operation with
  | deposit amount => exact deposit_settled amount
  | withdraw amount => exact withdraw_settled amount
  | setStake ctx value => exact setStake_settled ctx value
  | setHeight height => exact Or.inr ⟨_, rfl, .setHeight height⟩
  | normalize revision => exact normalize_settled revision
  | moveDelegated delta => exact moveDelegated_settled delta
  | setDelegations delegations => exact setDelegations_settled delegations

/-! ### Runs -/

variable {operation : Operation} {after : Account}

/-- An operation that is accepted has an effect. -/
theorem effect_of_perform_ok (h : account.perform operation = (.ok (), after)) :
    Effect account operation after := by
  obtain ⟨error, hrefused⟩ | ⟨_, haccepted, effect⟩ := perform_settled account operation
  · rw [hrefused] at h
    cases h
  · rw [haccepted] at h
    cases h
    exact effect

theorem effect_of_apply_ok (h : account.apply operation = .ok after) :
    Effect account operation after := by
  refine effect_of_perform_ok ?_
  rw [apply] at h
  split at h
  · next houtcome =>
      cases h
      exact houtcome
  · cases h

/-- An operation that is refused leaves the account as it is. -/
theorem eq_of_perform_error {error : LedgerError}
    (h : account.perform operation = (.error error, after)) : after = account := by
  obtain ⟨_, hrefused⟩ | ⟨_, haccepted, -⟩ := perform_settled account operation
  · rw [hrefused] at h
    cases h
    rfl
  · rw [haccepted] at h
    cases h

/-- An operation leaves the account as it is, or has an effect. -/
theorem step_eq_or_effect (account : Account) (operation : Operation) :
    account.step operation = account ∨ Effect account operation (account.step operation) := by
  obtain ⟨_, hrefused⟩ | ⟨_, haccepted, effect⟩ := perform_settled account operation
  · exact Or.inl (by rw [step, hrefused])
  · refine Or.inr ?_
    rw [step, haccepted]
    exact effect

/-- An operation, accepted or not, leaves the stake part as it is or moves it. -/
theorem stake_moves_step (account : Account) (operation : Operation) :
    (account.step operation).stake = account.stake ∨
      ∃ part moved, account.stake = some part ∧ (account.step operation).stake = some moved ∧
        StakeMove account operation part moved := by
  obtain hsame | effect := step_eq_or_effect account operation
  · exact Or.inl (by rw [hsame])
  · exact effect.stake_moves

theorem apply_eq_ok_of_accepted (h : (account.perform operation).1 = .ok ()) :
    account.apply operation = .ok (account.step operation) := by
  rw [apply, step]
  cases houtcome : account.perform operation with
  | mk outcome after =>
      rw [houtcome] at h
      cases h
      rfl

@[simp] theorem run_nil (account : Account) : account.run [] = account := rfl

@[simp] theorem run_cons (account : Account) (operation : Operation) (rest : List Operation) :
    account.run (operation :: rest) = (account.step operation).run rest := rfl

/-- What every effect of the operations of a run keeps holds after the run. -/
theorem run_induction_of {P : Account → Prop} {Q : Operation → Prop}
    (keeps : ∀ {account operation after}, Q operation → P account → Effect account operation after →
      P after)
    (start : P account) (operations : List Operation)
    (all : ∀ operation ∈ operations, Q operation) : P (account.run operations) := by
  induction operations generalizing account with
  | nil => exact start
  | cons operation rest ih =>
      obtain ⟨hfirst, hrest⟩ := List.forall_mem_cons.1 all
      rw [run_cons]
      refine ih ?_ hrest
      obtain hsame | effect := step_eq_or_effect account operation
      · exact hsame.symm ▸ start
      · exact keeps hfirst start effect

/-- What every effect keeps holds after every run. -/
theorem run_induction {P : Account → Prop}
    (keeps : ∀ {account operation after}, P account → Effect account operation after → P after)
    (start : P account) (operations : List Operation) : P (account.run operations) :=
  run_induction_of (fun _ => keeps) start operations fun _ _ => trivial

end Account

end StakeLedger
