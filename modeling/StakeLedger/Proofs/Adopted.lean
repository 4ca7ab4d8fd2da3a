/-
**When the single amount is adopted cannot be told.**

Where several unstakes are known, the single amount that an older record left is moved into the
slots by whatever operation next changes the stake part.  Until then it stays where it is, for any
number of operations: a change of the stake to the value it has leaves it alone, and so does
everything that looks at the balance only.  The count of what is pending or unlocked, the slots in
their order and the record all treat it as the slot that it will be.

So an account and the one whose single amount is adopted already cannot be told apart.  Adopting
commutes with every operation that goes by the slot policy: the operation gives the same outcome on
both, and leaves behind the one account and what adopting makes of it.

Main definitions:

* `StakeLedger.Account.adopted` — the account with its single amount moved into the slots;
* `StakeLedger.Account.Operation.KnowsSlots` — operations that go by no revision before slots;
* `StakeLedger.StakePart.SeenAs` — **what is seen of two stake parts where slots are known**.

Main results:

* `StakeLedger.StakePart.Sound.seenAs_adopt` — the same is seen before and after an adoption;
* `StakeLedger.Account.perform_adopted`, `StakeLedger.Account.trace_adopted` — adopting commutes
  with an operation and with a run;
* `StakeLedger.Account.adoption_unseen` — **the two accounts cannot be told apart at any step**.
-/
import StakeLedger.Proofs.Records
import StakeLedger.Proofs.Reduced
import StakeLedger.Proofs.Schedules

set_option autoImplicit false

namespace StakeLedger

/-! ### Stake parts -/

namespace UnstakePolicy

variable {part : StakePart}

/-- The single amount is unlocked where the slot is that it becomes. -/
theorem matured_adopt (nonneg : 0 ≤ part.unstake) (height : Nat) :
    matured .slots part.adopt height = matured .slots part height := by
  have hidle : 0 ≤ part.adopt.unstake := Int.le_of_eq (StakePart.adopt_unstake part).symm
  rw [matured_schedule nonneg, matured_schedule hidle, StakePart.schedule, StakePart.adopt_adopt]
  rfl

end UnstakePolicy

namespace StakePart

/-- What is seen of two parts where slots are known: the same stake, the same amount pending and the
same total of all unstakes, the same slots in order of unlocking, the same amount unlocked at every
height, and the same record.  The slots are in order and hold all that is pending. -/
structure SeenAs (part other : StakePart) : Prop where
  stake_eq : other.stake = part.stake
  pending_eq : other.pending = part.pending
  totalUnstaked_eq : other.totalUnstaked = part.totalUnstaked
  schedule_eq : other.schedule = part.schedule
  matured_eq : ∀ height,
    UnstakePolicy.slots.matured other height = UnstakePolicy.slots.matured part height
  toBytes_eq : ∀ revision, Revision.multipleUnstake ≤ revision →
    other.toBytes revision = part.toBytes revision
  ordered : Slot.Ordered part.schedule
  total_eq : Slot.total part.schedule = part.pending

variable {part : StakePart}

theorem schedule_adopt (part : StakePart) : part.adopt.schedule = part.schedule := by
  rw [schedule, adopt_adopt]
  rfl

/-- The record of slots holds the schedule, wherever the single amount is. -/
theorem toBytes_adopt {revision : Revision} (h : revision.hasMultipleUnstake = true)
    (part : StakePart) : part.adopt.toBytes revision = part.toBytes revision := by
  simp only [toBytes, toValue, if_pos h, schedule_adopt, adopt_stake]

/-- **The same is seen of a part before and after its single amount is adopted.** -/
theorem Sound.seenAs_adopt (h : part.Sound) : part.SeenAs part.adopt where
  stake_eq := adopt_stake part
  pending_eq := pending_adopt part
  totalUnstaked_eq := adopt_totalUnstaked part
  schedule_eq := schedule_adopt part
  matured_eq := UnstakePolicy.matured_adopt h.unstake_nonneg
  toBytes_eq _ le := toBytes_adopt (decide_eq_true le) part
  ordered := h.schedule_valid.2
  total_eq := total_schedule part

end StakePart

/-! ### Accounts -/

namespace Account

/-- The account with its single amount moved into the slots. -/
def adopted (account : Account) : Account :=
  { account with stake := account.stake.map StakePart.adopt }

/-- An operation that goes by no revision before slots. -/
def Operation.KnowsSlots (operation : Operation) : Prop :=
  ∀ revision ∈ operation.revision?, revision.hasMultipleUnstake = true

instance : DecidablePred Operation.KnowsSlots := fun operation =>
  inferInstanceAs (Decidable (∀ revision ∈ operation.revision?, revision.hasMultipleUnstake = true))

variable {account : Account} {part : StakePart} {ctx : StakingContext}

theorem stake_adopted (h : account.stake = some part) :
    account.adopted.stake = some part.adopt := by
  rw [adopted, h]
  rfl

theorem stake_adopted_of_none (h : account.stake = none) : account.adopted.stake = none := by
  rw [adopted, h]
  rfl

/-- Nothing that looks at the coin part tells the two accounts apart, nor does the flag. -/
theorem synced_adopted (account : Account) : account.adopted.synced = account.synced.adopted := by
  obtain ⟨address, height, revision, coin, stake, delegation⟩ := account
  cases coin with
  | none => cases stake <;> rfl
  | some coin =>
      cases stake with
      | none => rfl
      | some part => simp only [synced, adopted, Option.map_some, StakePart.pending_adopt]

/-- Adopting leaves an account alone whose stake part was just replaced by one without a single
amount. -/
theorem adopted_synced (h : part.adopt = part) (coin : Option CoinPart) :
    (Account.synced { account with coin, stake := some part }).adopted =
      Account.synced { account with coin, stake := some part } := by
  rw [← synced_adopted, adopted, Option.map_some, h]

/-! ### What one operation does -/

open AccountM

/-- A change that does not look at the stake part commutes with adopting. -/
theorem update_adopted {α : Type} {look : Account → Except LedgerError α}
    {put : α → Account → Account} (hlook : look account.adopted = look account)
    (hput : ∀ part, put part account.adopted = (put part account).adopted)
    (f : α → Except LedgerError α) :
    update look f put account.adopted = Prod.map id adopted (update look f put account) := by
  cases hpart : look account with
  | error error => rw [update_of_unseen hpart, update_of_unseen (hlook.trans hpart)]; rfl
  | ok part =>
      have hpart' := hlook.trans hpart
      cases hf : f part with
      | error error => rw [update_of_error hpart hf, update_of_error hpart' hf]; rfl
      | ok changed => rw [update_of_ok hpart hf, update_of_ok hpart' hf, hput]; rfl

/-- A stake is raised or lowered from the same part, adopted before or only now. -/
theorem moveStake_adopted (policy : ctx.policy = .slots) {coin : CoinPart}
    (hcoin : account.coin = some coin) (hstake : account.stake = some part) (value : Int) :
    ((do
        moveStake ctx part.stake value
        change synced : AccountM Unit) account.adopted) =
      Prod.map id adopted
        ((do
          moveStake ctx part.stake value
          change synced : AccountM Unit) account) := by
  have hcoin' : account.adopted.coin = some coin := hcoin
  have hstake' := stake_adopted hstake
  have hsame := StakePart.adopt_stake part
  rcases Int.lt_trichotomy part.stake value with higher | same | lower
  · have hraised : account.adopted.raised .slots coin part.adopt value =
        (account.raised .slots coin part value).adopted := by
      simp only [raised, adopted_synced (UnstakePolicy.adopt_raise part _), hsame,
        UnstakePolicy.raise_adopt, UnstakePolicy.payable_adopt]
      rfl
    rw [← hsame, moveStake_of_higher hcoin' hstake' (hsame ▸ higher), hsame,
      moveStake_of_higher hcoin hstake higher, policy, UnstakePolicy.payable_adopt, hraised]
    split <;> rfl
  · rw [← same, moveStake_of_same, moveStake_of_same, synced_adopted]
    rfl
  · have hlowered : account.adopted.lowered ctx part.adopt value =
        (account.lowered ctx part value).adopted := by
      simp only [lowered, policy, adopted_synced (UnstakePolicy.adopt_lower part _ _ _), hsame,
        UnstakePolicy.lower_adopt]
      rfl
    rw [← hsame, moveStake_of_lower hstake' (hsame ▸ lower), hsame,
      moveStake_of_lower hstake lower, hlowered]
    split <;> rfl

/-- A change of stake is judged by the same amounts and moves the same stake. -/
theorem setStake_adopted (policy : ctx.policy = .slots) (value : Int) :
    setStake ctx value account.adopted = Prod.map id adopted (setStake ctx value account) := by
  have hcoin' : account.adopted.coin = account.coin := rfl
  rw [setStake_apply, setStake_apply, hcoin']
  split
  · rfl
  split
  · rfl
  cases hcoin : account.coin with
  | none => rfl
  | some coin =>
      cases hstake : account.stake with
      | none => rw [stake_adopted_of_none hstake]; rfl
      | some part =>
          have hpending : ctx.policy.pending part.adopt = ctx.policy.pending part := by
            rw [policy]
            exact StakePart.pending_adopt part
          simp only [stake_adopted hstake, StakePart.adopt_stake, hpending]
          cases funds coin.balance part.stake (ctx.policy.pending part) with
          | error error => rfl
          | ok available =>
              dsimp only
              split
              · rfl
              · exact moveStake_adopted policy hcoin hstake value

/-- A release pays and leaves the same. -/
theorem normalize_adopted (sound : account.Sound) {revision : Revision}
    (policy : UnstakePolicy.ofRevision revision = .slots) :
    normalize revision account.adopted = Prod.map id adopted (normalize revision account) := by
  cases hstake : account.stake with
  | none =>
      rw [normalize_of_unstaked hstake, normalize_of_unstaked (stake_adopted_of_none hstake)]
      rfl
  | some part =>
      have hstake' := stake_adopted hstake
      have hmatured :
          (UnstakePolicy.ofRevision revision).matured part.adopt account.adopted.height =
            (UnstakePolicy.ofRevision revision).matured part account.height := by
        rw [policy]
        exact UnstakePolicy.matured_adopt (sound.stake_sound part hstake).unstake_nonneg _
      have hreleased : ∀ coin, account.adopted.released (.ofRevision revision) coin part.adopt =
          (account.released (.ofRevision revision) coin part).adopted := by
        intro coin
        simp only [released, policy, adopted_synced (UnstakePolicy.adopt_release part _),
          UnstakePolicy.release_adopt]
        rfl
      by_cases hpos : 0 < (UnstakePolicy.ofRevision revision).matured part account.height
      · have hcoin' : account.adopted.coin = account.coin := rfl
        rw [normalize_of_matured hstake hpos,
          normalize_of_matured hstake' (hmatured.symm ▸ hpos), hcoin']
        cases account.coin with
        | none => rfl
        | some coin =>
            simp only [hmatured, hreleased]
            split <;> rfl
      · rw [normalize_of_settled hstake hpos, normalize_of_settled hstake' (hmatured.symm ▸ hpos),
          hreleased]
        rfl

/-- **Adopting commutes with every operation that knows slots**: the outcome is the same, and what
the operation leaves behind is what adopting makes of it. -/
theorem perform_adopted (sound : account.Sound) {operation : Operation}
    (known : operation.KnowsSlots) :
    account.adopted.perform operation = Prod.map id adopted (account.perform operation) := by
  cases operation with
  | deposit | withdraw => exact @update_adopted account _ coinPart putCoin rfl (fun _ => rfl) _
  | setStake ctx value =>
      exact setStake_adopted (UnstakePolicy.ofRevision_eq_slots_iff.2 (known _ rfl)) value
  | setHeight height => rfl
  | normalize revision =>
      exact normalize_adopted sound (UnstakePolicy.ofRevision_eq_slots_iff.2 (known _ rfl))
  | moveDelegated | setDelegations =>
      exact @update_adopted account _ delegationPart putDelegation rfl (fun _ => rfl) _

/-! ### What a run does -/

/-- Adopting commutes with every run that knows slots. -/
theorem trace_adopted (sound : account.Sound) {operations : List Operation}
    (known : ∀ operation ∈ operations, operation.KnowsSlots) :
    account.adopted.trace operations = (account.trace operations).map (Prod.map id adopted) := by
  induction operations generalizing account with
  | nil => rfl
  | cons operation rest ih =>
      obtain ⟨hfirst, hrest⟩ := List.forall_mem_cons.1 known
      have hperform := perform_adopted sound hfirst
      have hstep : account.adopted.step operation = (account.step operation).adopted :=
        congrArg Prod.snd hperform
      rw [trace, trace, List.map_cons, hperform, hstep, ih (sound.step operation) hrest]

/-- Every account of a run is sound. -/
theorem sound_of_mem_trace (sound : account.Sound) {operations : List Operation}
    {found : Except LedgerError Unit × Account} (h : found ∈ account.trace operations) :
    found.2.Sound := by
  induction operations generalizing account with
  | nil => cases h
  | cons operation rest ih =>
      rcases List.mem_cons.1 h with rfl | hrest
      · exact sound.step operation
      · exact ih (sound.step operation) hrest

/-- The same is seen of an account before and after its single amount is adopted. -/
theorem Sound.related_adopted (h : account.Sound) :
    Related StakePart.SeenAs account account.adopted where
  coin_eq := rfl
  height_eq := rfl
  stakes := by
    cases hstake : account.stake with
    | none =>
        rw [stake_adopted_of_none hstake]
        exact .none
    | some part =>
        rw [stake_adopted hstake]
        exact .some (h.stake_sound part hstake).seenAs_adopt

/-- **An account and the one whose single amount is adopted already cannot be told apart by
operations that know slots**: the same is seen of both at the start, and at every step the outcomes
are the same and so is what is seen — balance and flags, the height, and of the stake part all that
counts. -/
theorem adoption_unseen (sound : account.Sound) {operations : List Operation}
    (known : ∀ operation ∈ operations, operation.KnowsSlots) :
    Related StakePart.SeenAs account account.adopted ∧
      List.Forall₂ (Alike StakePart.SeenAs) (account.trace operations)
        (account.adopted.trace operations) := by
  refine ⟨sound.related_adopted, ?_⟩
  rw [trace_adopted sound known, List.forall₂_map_right_iff, List.forall₂_same]
  intro found hfound
  exact ⟨rfl, (sound_of_mem_trace sound hfound).related_adopted⟩

/-- The stake is first set to the value it has, which leaves the single amount of the one account
where it is; the increase after it adopts the amount and uses up the first slot.  Then a decrease, a
release and a withdrawal that is refused. -/
def adoptionRun : List Operation :=
  [.setStake ⟨5, ⟨9⟩, 10, 4⟩ 50, .deposit 5, .setStake ⟨5, ⟨9⟩, 10, 4⟩ 60,
    .setStake ⟨6, ⟨9⟩, 10, 4⟩ 40, .setHeight 16, .normalize ⟨9⟩, .withdraw 1000]

theorem adoption_unseen_mixed :
    mixed.adopted ≠ mixed ∧ Related StakePart.SeenAs mixed mixed.adopted ∧
      List.Forall₂ (Alike StakePart.SeenAs) (mixed.trace adoptionRun)
        (mixed.adopted.trace adoptionRun) :=
  ⟨by decide, adoption_unseen mixed_sound (by decide)⟩

end Account

end StakeLedger
