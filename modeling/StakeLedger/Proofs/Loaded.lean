/-
**What operations keep of an account, whatever is loaded of it.**

An account in memory need not hold all of its parts.  No operation loads a part or drops one, none
changes what a coin part is for, and only an operation on a loaded stake part touches the flag that
says whether something is pending, which it leaves telling the truth.  What is not loaded counts as
nothing here, and even so operations change what an account is worth by exactly what they pay in.

Main definitions:

* `StakeLedger.CoinPart.fixed` — what no operation changes of a coin part;
* `StakeLedger.Account.Synced` — the flag of the coin part tells whether something is pending;
* `StakeLedger.Account.worth` — what the loaded parts hold;
* `StakeLedger.Account.Continues` — an account that operations lead to from another one.

Main results:

* `StakeLedger.Account.Effect.worth`, `StakeLedger.Account.worth_run` — what an operation and a run
  change of what an account is worth;
* `StakeLedger.Account.continues_run`, `StakeLedger.Account.synced_run`,
  `StakeLedger.Account.heightsFit_run`, `StakeLedger.Account.delegationInRange_run` — what every
  run keeps.
-/
import StakeLedger.Proofs.Conservation
import StakeLedger.Proofs.Records
import StakeLedger.Proofs.Release

set_option autoImplicit false

namespace StakeLedger

open Results

/-! ### Flags -/

/-- What holds of all 256 bytes holds of every byte. -/
theorem forall_byte {P : UInt8 → Prop} (h : ∀ n : Fin 256, P (UInt8.ofNat n)) (b : UInt8) :
    P b := by
  have hb := h ⟨b.toNat, b.toNat_lt⟩
  rwa [UInt8.ofNat_toNat] at hb

namespace CoinPart

/-- What no operation changes of a coin part: its role, and its flags apart from the one that says
that an unstake is pending. -/
def fixed (part : CoinPart) : Role × UInt8 := (part.role, part.flags &&& ~~~hasUnstakeFlag)

theorem hasFlag_setFlag (part : CoinPart) (on : Bool) :
    (part.setFlag hasUnstakeFlag on).hasFlag hasUnstakeFlag = on := by
  have all : ∀ flags : UInt8, ∀ on : Bool,
      ((if on then flags ||| hasUnstakeFlag else flags &&& ~~~hasUnstakeFlag) &&& hasUnstakeFlag ==
        hasUnstakeFlag) = on := by
    refine forall_byte ?_
    decide +kernel
  exact all part.flags on

@[simp] theorem fixed_setFlag (part : CoinPart) (on : Bool) :
    (part.setFlag hasUnstakeFlag on).fixed = part.fixed := by
  have all : ∀ flags : UInt8, ∀ on : Bool,
      (if on then flags ||| hasUnstakeFlag else flags &&& ~~~hasUnstakeFlag) &&&
        ~~~hasUnstakeFlag = flags &&& ~~~hasUnstakeFlag := by
    refine forall_byte ?_
    decide +kernel
  exact congrArg (Prod.mk part.role) (all part.flags on)

end CoinPart

/-! ### Heights -/

namespace Slot

variable {bound : Nat} {slots : List Slot} {slot : Slot}

/-- Joining the last slot leads to no height beyond a bound on all heights that it joins. -/
theorem height_le_of_mem_raiseLast {amount : Int} {height : Nat} (le : height ≤ bound)
    (all : ∀ slot ∈ slots, slot.unlockHeight ≤ bound) (h : slot ∈ raiseLast amount height slots) :
    slot.unlockHeight ≤ bound := by
  fun_induction raiseLast amount height slots with
  | case1 => exact absurd h List.not_mem_nil
  | case2 last =>
      rw [List.mem_singleton] at h
      rw [h]
      exact Nat.max_le.2 ⟨all last (List.mem_singleton_self last), le⟩
  | case3 first rest _ ih =>
      obtain ⟨hfirst, hrest⟩ := List.forall_mem_cons.1 all
      rcases List.mem_cons.1 h with rfl | hmem
      · exact hfirst
      · exact ih hrest hmem

/-- Taking back leads to no new height. -/
theorem height_le_of_mem_drain {amount : Int} (all : ∀ slot ∈ slots, slot.unlockHeight ≤ bound)
    (h : slot ∈ drain amount slots) : slot.unlockHeight ≤ bound := by
  fun_induction drain amount slots with
  | case1 => exact absurd h List.not_mem_nil
  | case2 => exact all slot h
  | case3 amount first rest _ _ ih => exact ih (List.forall_mem_cons.1 all).2 h
  | case4 amount first rest =>
      obtain ⟨hfirst, hrest⟩ := List.forall_mem_cons.1 all
      rcases List.mem_cons.1 h with rfl | hmem
      · exact hfirst
      · exact hrest slot hmem

end Slot

namespace StakePart

variable {part : StakePart}

theorem HeightsFit.adopt (h : part.HeightsFit) : part.adopt.HeightsFit where
  height_le := by
    unfold StakePart.adopt
    split
    · exact h.height_le
    · exact Nat.zero_le _
  heights_le := h.schedule

theorem HeightsFit.raise (h : part.HeightsFit) (policy : UnstakePolicy) (delta : Int) :
    (policy.raise part delta).HeightsFit := by
  cases policy with
  | single =>
      refine ⟨?_, h.heights_le⟩
      change (if _ then 0 else part.unstakeHeight) ≤ maxHeight
      split
      · exact Nat.zero_le _
      · exact h.height_le
  | slots =>
      exact ⟨h.adopt.height_le, fun slot hmem => Slot.height_le_of_mem_drain h.schedule hmem⟩

theorem HeightsFit.lower (h : part.HeightsFit) (policy : UnstakePolicy) (released : Int)
    {unlockHeight : Nat} (le : unlockHeight ≤ maxHeight) (slotMax : Nat) :
    (policy.lower part released unlockHeight slotMax).HeightsFit := by
  cases policy with
  | single => exact ⟨le, h.heights_le⟩
  | slots =>
      refine ⟨h.adopt.height_le, ?_⟩
      simp only [UnstakePolicy.lower, UnstakePolicy.push]
      intro slot hmem
      split at hmem
      · rcases Slot.mem_insert.1 hmem with rfl | hmem
        · exact le
        · exact h.schedule slot hmem
      · exact Slot.height_le_of_mem_raiseLast le h.schedule hmem

theorem HeightsFit.release (h : part.HeightsFit) (policy : UnstakePolicy) (height : Nat) :
    (policy.release part height).HeightsFit := by
  cases policy with
  | single =>
      simp only [UnstakePolicy.release]
      split
      · exact ⟨Nat.zero_le _, h.heights_le⟩
      · exact h
  | slots =>
      exact ⟨h.adopt.height_le, fun slot hmem => h.schedule slot (List.mem_filter.1 hmem).1⟩

end StakePart

/-! ### Delegated amounts -/

namespace DelegationPart

variable {part : DelegationPart}

theorem InRange.moveDelegated {moved : DelegationPart} {delta : Int}
    (h : part.InRange) (accepted : part.moveDelegated delta = .ok moved) : moved.InRange := by
  rw [DelegationPart.moveDelegated] at accepted
  cases hsum : Amount.add? part.delegated delta with
  | none =>
      rw [hsum] at accepted
      cases accepted
  | some delegated =>
      obtain ⟨rfl, hrange⟩ := Amount.add?_eq_some_iff.1 hsum
      rw [hsum] at accepted
      obtain ⟨hsign, hmoved⟩ := refused_or_eq_ok.1 accepted
      cases hmoved
      exact ⟨Int.not_lt.1 hsign, hrange.2, h.amount_nonneg, h.amount_le⟩

theorem InRange.setDelegations {replaced : DelegationPart}
    {delegations : List Delegation} (h : part.InRange)
    (amounts : ∀ d ∈ delegations, Amount.InRange d.amount)
    (accepted : part.setDelegations delegations = .ok replaced) : replaced.InRange := by
  rw [DelegationPart.setDelegations] at accepted
  cases hfind : delegations.find? fun d => decide (d.amount < 0) with
  | some d =>
      rw [hfind] at accepted
      cases accepted
  | none =>
      rw [hfind] at accepted
      cases accepted
      refine ⟨h.delegated_nonneg, h.delegated_le, ?_, fun d hd => (amounts d hd).2⟩
      intro d hd
      have hsign := List.find?_eq_none.1 hfind d hd
      rw [decide_eq_true_eq] at hsign
      exact Int.not_lt.1 hsign

end DelegationPart

namespace Account

variable {account after : Account} {operation : Operation}

/-- The flag of the coin part says whether something is pending, if both parts are loaded. -/
def Synced (account : Account) : Prop :=
  ∀ coin part, account.coin = some coin → account.stake = some part →
    (coin.hasFlag CoinPart.hasUnstakeFlag = true ↔ 0 < part.pending)

theorem synced_synced (account : Account) : account.synced.Synced := by
  intro coin part hcoin hstake
  rw [synced_stake] at hstake
  cases hbefore : account.coin with
  | none => simp [synced, hbefore] at hcoin
  | some before =>
      simp only [synced, hbefore, hstake, Option.some.injEq] at hcoin
      rw [← hcoin, CoinPart.hasFlag_setFlag, decide_eq_true_eq]

@[simp] theorem fixed_synced (account : Account) :
    account.synced.coin.map CoinPart.fixed = account.coin.map CoinPart.fixed := by
  unfold synced
  split
  · next hcoin _ => simp [hcoin]
  · rfl

@[simp] theorem address_synced (account : Account) :
    account.synced.address = account.address := by
  unfold synced
  split <;> rfl

@[simp] theorem revision_synced (account : Account) :
    account.synced.revision = account.revision := by
  unfold synced
  split <;> rfl

@[simp] theorem delegation_synced (account : Account) :
    account.synced.delegation = account.delegation := by
  unfold synced
  split <;> rfl

/-! ### One step -/

/-- No effect changes what a coin part is for. -/
theorem Effect.fixed_eq (effect : Effect account operation after) :
    after.coin.map CoinPart.fixed = account.coin.map CoinPart.fixed := by
  cases effect with
  | deposit loaded | withdraw loaded =>
      rw [loaded]
      rfl
  | setHeight | unstaked | moveDelegated | setDelegations => rfl
  | raise admitted =>
      refine (fixed_synced _).trans ?_
      rw [admitted.coin_loaded]
      rfl
  | lower | keep | settle => exact fixed_synced _
  | release coin_loaded =>
      refine (fixed_synced _).trans ?_
      rw [coin_loaded]
      rfl

/-- Without a stake part no effect touches a flag. -/
theorem Effect.flags_eq (effect : Effect account operation after)
    (unloaded : account.stake = none) :
    after.coin.map CoinPart.flags = account.coin.map CoinPart.flags := by
  cases effect with
  | deposit loaded | withdraw loaded =>
      rw [loaded]
      rfl
  | setHeight | unstaked | moveDelegated | setDelegations => rfl
  | raise admitted | lower admitted | keep admitted =>
      rw [admitted.stake_loaded] at unloaded
      cases unloaded
  | release _ stake_loaded | settle stake_loaded =>
      rw [stake_loaded] at unloaded
      cases unloaded

theorem Effect.isSome_coin (effect : Effect account operation after) :
    after.coin.isSome = account.coin.isSome := by
  have hfixed := congrArg Option.isSome effect.fixed_eq
  rwa [Option.isSome_map, Option.isSome_map] at hfixed

theorem Effect.isSome_stake (effect : Effect account operation after) :
    after.stake.isSome = account.stake.isSome := by
  obtain hsame | ⟨part, moved, hpart, hmoved, -⟩ := effect.stake_moves
  · rw [hsame]
  · rw [hpart, hmoved]
    rfl

theorem delegation_of_loaded {part : DelegationPart} (h : account.delegationPart = .ok part) :
    account.delegation = some part := by
  rw [delegationPart] at h
  cases hpart : account.delegation with
  | none =>
      rw [hpart] at h
      cases h
  | some found =>
      rw [hpart] at h
      cases h
      rfl

theorem Effect.isSome_delegation (effect : Effect account operation after) :
    after.delegation.isSome = account.delegation.isSome := by
  cases effect with
  | deposit | withdraw | setHeight | unstaked => rfl
  | raise | lower | keep | release | settle => exact congrArg Option.isSome (delegation_synced _)
  | moveDelegated loaded | setDelegations loaded =>
      rw [delegation_of_loaded loaded]
      rfl

/-- The flag goes on telling the truth. -/
theorem Effect.synced (effect : Effect account operation after) (h : account.Synced) :
    after.Synced := by
  cases effect with
  | @deposit coin amount loaded _ _ | @withdraw coin amount loaded _ _ =>
      rintro _ part ⟨⟩ hstake
      exact h coin part loaded hstake
  | setHeight | unstaked | moveDelegated | setDelegations => exact h
  | raise | lower | keep | release | settle => exact synced_synced _

/-- A height that an effect leads to has a form if those before have one. -/
theorem Effect.heightsFit (effect : Effect account operation after)
    (h : ∀ part, account.stake = some part → part.HeightsFit) :
    ∀ part, after.stake = some part → part.HeightsFit := by
  intro found hfound
  cases effect with
  | deposit | withdraw | setHeight | unstaked | moveDelegated | setDelegations =>
      exact h found hfound
  | keep =>
      rw [synced_stake] at hfound
      exact h found hfound
  | @raise ctx value coin part admitted _ _ =>
      cases hfound.symm.trans (synced_stake _)
      exact (h part admitted.stake_loaded).raise ctx.policy _
  | @lower ctx value coin part admitted _ height_le =>
      cases hfound.symm.trans (synced_stake _)
      exact (h part admitted.stake_loaded).lower ctx.policy _ height_le _
  | @release revision coin part _ stake_loaded _ _ =>
      cases hfound.symm.trans (synced_stake _)
      exact (h part stake_loaded).release _ _
  | @settle revision part stake_loaded _ =>
      cases hfound.symm.trans (synced_stake _)
      exact (h part stake_loaded).release _ _

/-! ### Delegations -/

/-- The delegations that an operation brings hold amounts. -/
def Operation.InRange : Operation → Prop
  | .setDelegations delegations => ∀ d ∈ delegations, Amount.InRange d.amount
  | _ => True

instance : DecidablePred Operation.InRange
  | .setDelegations delegations =>
      inferInstanceAs (Decidable (∀ d ∈ delegations, Amount.InRange d.amount))
  | .deposit _ | .withdraw _ | .setStake _ _ | .setHeight _ | .normalize _ | .moveDelegated _ =>
      inferInstanceAs (Decidable True)

theorem Effect.delegationInRange (effect : Effect account operation after)
    (inRange : operation.InRange) (h : ∀ part, account.delegation = some part → part.InRange) :
    ∀ part, after.delegation = some part → part.InRange := by
  intro found hfound
  cases effect with
  | deposit | withdraw | setHeight | unstaked => exact h found hfound
  | raise | lower | keep | release | settle =>
      refine h found (Eq.trans (Eq.symm ?_) hfound)
      exact delegation_synced _
  | moveDelegated loaded accepted =>
      cases hfound
      exact (h _ (delegation_of_loaded loaded)).moveDelegated accepted
  | setDelegations loaded accepted =>
      cases hfound
      exact (h _ (delegation_of_loaded loaded)).setDelegations inRange accepted

/-! ### What an account is worth -/

/-- What is pending, or nothing if the stake part is not loaded. -/
def pending (account : Account) : Int :=
  match account.stake with
  | some part => part.pending
  | none => 0

/-- What the loaded parts hold: the balance, the stake and what is pending. -/
def worth (account : Account) : Int := account.balance + account.staked + account.pending

theorem worth_of_unstaked (h : account.stake = none) : account.worth = account.balance := by
  rw [worth, staked, pending, h]
  simp only [Int.add_zero]

theorem worth_of_loaded {coin : CoinPart} {part : StakePart} (hcoin : account.coin = some coin)
    (hstake : account.stake = some part) :
    account.worth = coin.balance + part.stake + part.pending := by
  rw [worth, balance_of_loaded hcoin, staked_of_loaded hstake, pending, hstake]

/-- Every effect changes what an account is worth by what the operation pays in. -/
theorem Effect.worth (effect : Effect account operation after) (sound : account.Sound)
    (coin_loaded : account.stake.isSome = true → account.coin.isSome = true) :
    after.worth = account.worth + operation.paidIn := by
  have hloaded := effect.isSome_stake
  cases hstake : account.stake with
  | none =>
      rw [hstake, Option.isSome_none, Option.isSome_eq_false_iff, Option.isNone_iff_eq_none]
        at hloaded
      rw [worth_of_unstaked hloaded, worth_of_unstaked hstake]
      cases effect with
      | deposit loaded | withdraw loaded =>
          rw [balance_of_loaded loaded]
          rfl
      | setHeight | unstaked | moveDelegated | setDelegations => exact (Int.add_zero _).symm
      | raise admitted | lower admitted | keep admitted =>
          cases hstake.symm.trans admitted.stake_loaded
      | release _ stake_loaded | settle stake_loaded => cases hstake.symm.trans stake_loaded
  | some part =>
      obtain ⟨coin, hcoin⟩ := Option.isSome_iff_exists.1 (coin_loaded (by rw [hstake]; rfl))
      have hholdings := effect.holdings sound (holdings_of_loaded hcoin hstake)
      obtain ⟨coin', part', hcoin', hstake', hheld⟩ := exists_loaded_of_holdings hholdings
      rw [worth_of_loaded hcoin' hstake', worth_of_loaded hcoin hstake, hheld]

/-! ### Whole runs -/

/-- An account that operations lead to: they change neither whose it is, nor what is loaded of it,
nor what its coin part is for, and without a stake part no flag. -/
structure Continues (start account : Account) : Prop where
  address_eq : account.address = start.address
  revision_eq : account.revision = start.revision
  fixed_eq : account.coin.map CoinPart.fixed = start.coin.map CoinPart.fixed
  flags_eq : start.stake = none →
    account.coin.map CoinPart.flags = start.coin.map CoinPart.flags
  isSome_stake : account.stake.isSome = start.stake.isSome
  isSome_delegation : account.delegation.isSome = start.delegation.isSome

theorem Continues.refl (account : Account) : account.Continues account :=
  ⟨rfl, rfl, rfl, fun _ => rfl, rfl, rfl⟩

theorem Effect.address_eq (effect : Effect account operation after) :
    after.address = account.address := by
  cases effect with
  | deposit | withdraw | setHeight | unstaked | moveDelegated | setDelegations => rfl
  | raise | lower | keep | release | settle => exact address_synced _

theorem Effect.revision_eq (effect : Effect account operation after) :
    after.revision = account.revision := by
  cases effect with
  | deposit | withdraw | setHeight | unstaked | moveDelegated | setDelegations => rfl
  | raise | lower | keep | release | settle => exact revision_synced _

theorem Continues.isSome_coin {start : Account} (h : start.Continues account) :
    account.coin.isSome = start.coin.isSome := by
  have hfixed := congrArg Option.isSome h.fixed_eq
  rwa [Option.isSome_map, Option.isSome_map] at hfixed

/-- What is not loaded at the start stays unloaded. -/
theorem Continues.stake_eq_none {start : Account} (h : start.Continues account)
    (unloaded : start.stake = none) : account.stake = none := by
  have hstake := h.isSome_stake
  rwa [unloaded, Option.isSome_none, Option.isSome_eq_false_iff, Option.isNone_iff_eq_none]
    at hstake

theorem Continues.coin_eq_none {start : Account} (h : start.Continues account)
    (unloaded : start.coin = none) : account.coin = none := by
  have hcoin := h.isSome_coin
  rwa [unloaded, Option.isSome_none, Option.isSome_eq_false_iff, Option.isNone_iff_eq_none]
    at hcoin

theorem Continues.effect {start : Account} (h : start.Continues account)
    (effect : Effect account operation after) : start.Continues after where
  address_eq := effect.address_eq.trans h.address_eq
  revision_eq := effect.revision_eq.trans h.revision_eq
  fixed_eq := effect.fixed_eq.trans h.fixed_eq
  flags_eq unloaded := (effect.flags_eq (h.stake_eq_none unloaded)).trans (h.flags_eq unloaded)
  isSome_stake := effect.isSome_stake.trans h.isSome_stake
  isSome_delegation := effect.isSome_delegation.trans h.isSome_delegation

/-- **Every run leads to an account that continues the one it starts from.** -/
theorem continues_run (account : Account) (operations : List Operation) :
    account.Continues (account.run operations) :=
  run_induction Continues.effect (Continues.refl account) operations

theorem synced_run (h : account.Synced) (operations : List Operation) :
    (account.run operations).Synced :=
  run_induction (fun h effect => effect.synced h) h operations

theorem heightsFit_run (h : ∀ part, account.stake = some part → part.HeightsFit)
    (operations : List Operation) :
    ∀ part, (account.run operations).stake = some part → part.HeightsFit :=
  @run_induction account (fun account => ∀ part, account.stake = some part → part.HeightsFit)
    (fun h effect => effect.heightsFit h) h operations

theorem delegationInRange_run (h : ∀ part, account.delegation = some part → part.InRange)
    {operations : List Operation} (inRange : ∀ operation ∈ operations, operation.InRange) :
    ∀ part, (account.run operations).delegation = some part → part.InRange :=
  @run_induction_of account
    (fun account => ∀ part, account.delegation = some part → part.InRange) Operation.InRange
    (fun inRange h effect => effect.delegationInRange inRange h) h operations inRange

/-- **A run changes what an account is worth by what it pays in.** -/
theorem worth_run (sound : account.Sound)
    (coin_loaded : account.stake.isSome = true → account.coin.isSome = true)
    (operations : List Operation) :
    (account.run operations).worth = account.worth + account.inflow operations := by
  induction operations generalizing account with
  | nil => exact (Int.add_zero _).symm
  | cons operation rest ih =>
      rw [run_cons, inflow_cons]
      obtain ⟨error, hrefused⟩ | ⟨after, haccepted, effect⟩ := perform_settled account operation
      · have hsame : account.step operation = account := by rw [step, hrefused]
        rw [hsame, hrefused, Int.zero_add]
        exact ih sound coin_loaded
      · have hafter : account.step operation = after := by rw [step, haccepted]
        have hrest := ih (sound.effect effect) fun hstake => by
          rw [effect.isSome_coin]
          rw [effect.isSome_stake] at hstake
          exact coin_loaded hstake
        rw [hafter, haccepted, hrest, effect.worth sound coin_loaded, Int.add_assoc]

end Account

end StakeLedger
