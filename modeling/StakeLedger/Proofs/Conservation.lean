/-
**Nothing is made or lost.**

An amount of an account is in one of four places: in the balance, in the stake, in the single
pending amount or in a slot.  Operations move amounts between these places; only what is paid in and
what is taken out changes the sum.  This holds whatever the revisions of the operations are, also
where they alternate and both shapes of pending unstakes are filled at once.

Main definitions:

* `StakeLedger.Account.holdings` — what is in the four places together;
* `StakeLedger.Account.accepted` — the operations of a run that were accepted;
* `StakeLedger.Account.inflow` — what they paid in, less what they took out.

Main results:

* `StakeLedger.Account.holdings_run` — after every run the holdings are those at its start and the
  inflow.
-/
import StakeLedger.Proofs.Soundness

set_option autoImplicit false

namespace StakeLedger.Account

/-! ### Holdings and inflow -/

/-- What the account holds in its balance, its stake and all that is pending, once both of its parts
are loaded. -/
def holdings (account : Account) : Option Int :=
  match account.coin, account.stake with
  | some coin, some part =>
      some (coin.balance + part.stake + part.unstake + Slot.total part.slots)
  | _, _ => none

/-- What an operation pays in if it is accepted. -/
def Operation.paidIn : Operation → Int
  | .deposit amount => amount
  | .withdraw amount => -amount
  | _ => 0

/-- The operations of a run that were accepted. -/
def accepted (account : Account) : List Operation → List Operation
  | [] => []
  | operation :: rest =>
      match account.perform operation with
      | (.ok _, after) => operation :: after.accepted rest
      | (.error _, after) => after.accepted rest

/-- What the accepted deposits of a run paid in, less what the accepted withdrawals took out. -/
def inflow (account : Account) (operations : List Operation) : Int :=
  (account.accepted operations).foldr (fun operation sum => operation.paidIn + sum) 0

variable {account after : Account} {operation : Operation} {held : Int}

theorem holdings_of_loaded {coin : CoinPart} {part : StakePart} (hcoin : account.coin = some coin)
    (hstake : account.stake = some part) :
    account.holdings = some (coin.balance + part.stake + part.pending) := by
  rw [holdings, hcoin, hstake]
  change some (coin.balance + part.stake + part.unstake + Slot.total part.slots) =
    some (coin.balance + part.stake + (part.unstake + Slot.total part.slots))
  rw [Int.add_assoc _ part.unstake]

/-- Holdings are known once both parts are loaded. -/
theorem exists_loaded_of_holdings (h : account.holdings = some held) :
    ∃ coin part, account.coin = some coin ∧ account.stake = some part ∧
      held = coin.balance + part.stake + part.pending := by
  cases hcoin : account.coin with
  | none => simp [holdings, hcoin] at h
  | some coin =>
      cases hstake : account.stake with
      | none => simp [holdings, hcoin, hstake] at h
      | some part =>
          rw [holdings_of_loaded hcoin hstake] at h
          cases h
          exact ⟨coin, part, rfl, rfl, rfl⟩

@[simp] theorem holdings_synced (account : Account) :
    account.synced.holdings = account.holdings := by
  cases hcoin : account.coin with
  | none => simp [synced, hcoin]
  | some coin =>
      cases hstake : account.stake with
      | none => simp [synced, hcoin, hstake]
      | some part => simp [synced, holdings, hcoin, hstake, CoinPart.setFlag]

/-! ### The effects move amounts -/

/-- An increase moves what it needs out of what is pending and out of the balance. -/
theorem holdings_raised {policy : UnstakePolicy} {coin : CoinPart} {part : StakePart} {value : Int}
    (hpart : part.Sound) (higher : part.stake < value) :
    (account.raised policy coin part value).holdings =
      some (coin.balance + part.stake + part.pending) := by
  have hpending := UnstakePolicy.pending_raise hpart
    (Int.sub_nonneg.2 (Int.le_of_lt higher)) policy
  rw [raised, holdings_synced, holdings_of_loaded rfl rfl, hpending]
  change some (coin.balance - (value - part.stake - policy.reclaimable part (value - part.stake)) +
    (part.stake + (value - part.stake)) + _) = _
  congr 1
  omega

/-- A decrease moves what it takes off the stake into what is pending. -/
theorem holdings_lowered {ctx : StakingContext} {coin : CoinPart} {part : StakePart} {value : Int}
    (admitted : Admitted account ctx value coin part) :
    (account.lowered ctx part value).holdings =
      some (coin.balance + part.stake + part.pending) := by
  have hpending :
      (ctx.policy.lower part (part.stake - value) ctx.unlockHeight ctx.slotMax).pending =
        part.pending + (part.stake - value) :=
    UnstakePolicy.pending_lower admitted.room _ _
  rw [lowered, holdings_synced]
  refine Eq.trans (holdings_of_loaded admitted.coin_loaded rfl) ?_
  rw [hpending]
  change some (coin.balance + (part.stake - (part.stake - value)) + _) = _
  congr 1
  omega

/-- A release moves what is unlocked into the balance. -/
theorem holdings_released {policy : UnstakePolicy} {coin : CoinPart} {part : StakePart}
    (hpart : part.Sound) (paid : CoinPart)
    (hpaid : paid.balance = coin.balance + policy.matured part account.height) :
    (account.released policy (some paid) part).holdings =
      some (coin.balance + part.stake + part.pending) := by
  have hpending := UnstakePolicy.pending_release hpart policy account.height
  rw [released, holdings_synced, holdings_of_loaded rfl rfl, hpending,
    UnstakePolicy.release_stake, hpaid]
  congr 1
  omega

/-- Every effect changes the holdings by what the operation pays in. -/
theorem Effect.holdings (effect : Effect account operation after) (sound : account.Sound)
    (h : account.holdings = some held) : after.holdings = some (held + operation.paidIn) := by
  obtain ⟨coin, part, hcoin, hstake, rfl⟩ := exists_loaded_of_holdings h
  have hpart := sound.stake_sound part hstake
  have hsame : some (coin.balance + part.stake + part.pending) =
      some (coin.balance + part.stake + part.pending + 0) := by rw [Int.add_zero]
  cases effect with
  | @deposit _ amount loaded _ _ =>
      cases hcoin.symm.trans loaded
      refine Eq.trans (holdings_of_loaded rfl hstake) ?_
      change some (coin.balance + amount + _ + _) = some (_ + amount)
      congr 1
      omega
  | @withdraw _ amount loaded _ _ =>
      cases hcoin.symm.trans loaded
      refine Eq.trans (holdings_of_loaded rfl hstake) ?_
      change some (coin.balance - amount + _ + _) = some (_ + -amount)
      congr 1
      omega
  | raise admitted higher _ =>
      cases hcoin.symm.trans admitted.coin_loaded
      cases hstake.symm.trans admitted.stake_loaded
      exact (holdings_raised hpart higher).trans hsame
  | lower admitted _ _ =>
      cases hcoin.symm.trans admitted.coin_loaded
      cases hstake.symm.trans admitted.stake_loaded
      exact (holdings_lowered admitted).trans hsame
  | keep => exact (holdings_synced account).trans (h.trans hsame)
  | setHeight => exact h.trans hsame
  | release coin_loaded stake_loaded _ _ =>
      cases hcoin.symm.trans coin_loaded
      cases hstake.symm.trans stake_loaded
      exact (holdings_released hpart _ rfl).trans hsame
  | @settle revision _ stake_loaded none_matured =>
      cases hstake.symm.trans stake_loaded
      -- nothing is unlocked, so that what the release drops is exactly zero
      have hnonneg := UnstakePolicy.matured_nonneg hpart (.ofRevision revision) account.height
      rw [hcoin]
      exact (holdings_released hpart coin (by omega)).trans hsame
  | unstaked unloaded => cases hstake.symm.trans unloaded
  | moveDelegated => exact h.trans hsame
  | setDelegations => exact h.trans hsame

/-! ### Whole runs -/

/-- What a run pays in is what its first operation does, if it is accepted, and the rest. -/
theorem inflow_cons (account : Account) (operation : Operation) (rest : List Operation) :
    account.inflow (operation :: rest) =
      (match (account.perform operation).1 with
        | .ok _ => operation.paidIn
        | .error _ => 0) + (account.step operation).inflow rest := by
  rw [inflow, accepted, step]
  obtain ⟨outcome, after⟩ := account.perform operation
  cases outcome with
  | ok _ => rfl
  | error _ => exact (Int.zero_add _).symm

/-- A release pays in nothing, accepted or not. -/
theorem inflow_normalize_cons (account : Account) (revision : Revision) (rest : List Operation) :
    account.inflow (.normalize revision :: rest) =
      (account.step (.normalize revision)).inflow rest := by
  rw [inflow_cons]
  split
  · exact Int.zero_add _
  · exact Int.zero_add _

/-- **After every run the account holds what it held at the start and what was paid in.** -/
theorem holdings_run (made : account.Made) (loaded : account.holdings = some held)
    (operations : List Operation) :
    (account.run operations).holdings = some (held + account.inflow operations) := by
  -- the parts do not stay as they were made, so the induction carries soundness
  have sound := made.sound
  clear made
  induction operations generalizing account held with
  | nil => exact loaded.trans (by rw [inflow, accepted, List.foldr_nil, Int.add_zero])
  | cons operation rest ih =>
      rw [run_cons, inflow_cons]
      obtain ⟨error, hrefused⟩ | ⟨after, haccepted, effect⟩ := perform_settled account operation
      · have hsame : account.step operation = account := by rw [step, hrefused]
        rw [hsame, hrefused, Int.zero_add]
        exact ih loaded sound
      · have hafter : account.step operation = after := by rw [step, haccepted]
        rw [hafter, haccepted, ← Int.add_assoc]
        exact ih (effect.holdings sound loaded) (sound.effect effect)

/-- A run whose operations go by both policies, with a withdrawal that is refused. -/
def mixedRun : List Operation :=
  [.deposit 20, .setStake ⟨5, ⟨9⟩, 20, 2⟩ 20, .setStake ⟨6, ⟨5⟩, 20, 2⟩ 10, .withdraw 1000,
    .setHeight 26, .normalize ⟨9⟩, .withdraw 5]

theorem holdings_mixedRun :
    (small.run mixedRun).holdings = some (180 + small.inflow mixedRun) ∧
      small.inflow mixedRun = 15 :=
  ⟨holdings_run small_made rfl mixedRun, by decide⟩

end StakeLedger.Account
