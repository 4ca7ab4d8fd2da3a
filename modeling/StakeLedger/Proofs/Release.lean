/-
**Nothing is released early.**

An unstake may be joined to another one or be taken back in part, and an amount that is released
does not tell which unstake it came from.  What can be told at every height is how much is due by
then.  Under the slot policy no change of stake makes more due by a height than what it unstakes for
that height or an earlier one: joining the last slot only raises heights, and taking back only
lowers amounts.  A release takes exactly what is due by its own height.  Hence what all releases of
a run pay, as long as they happen by some height, never exceeds what was due by that height at the
start and what was unstaked for it since.

Main definitions:

* `StakeLedger.Slot.due`, `StakeLedger.StakePart.due`, `StakeLedger.Account.due` — what unlocks by a
  height;
* `StakeLedger.Account.paidOut` — what the releases of a run paid into the balance;
* `StakeLedger.Account.unstakedBy` — what a run unstaked with an unlock height up to a given one;
* `StakeLedger.Account.releaseHeights` — the heights at which a run releases.

Main results:

* `StakeLedger.Account.Effect.due_le` — what one step pays out and leaves due;
* `StakeLedger.Account.paidOut_le` — **no release of a run comes before its height**.
-/
import StakeLedger.Proofs.Representation

set_option autoImplicit false

namespace StakeLedger

/-! ### What slots hold that is due -/

namespace Slot

/-- What slots hold that unlocks by `height`. -/
def due (height : Nat) (slots : List Slot) : Int := total (slots.filter (matured height))

variable {height : Nat} {slots : List Slot}

theorem due_cons (height : Nat) (first : Slot) (rest : List Slot) :
    due height (first :: rest) =
      (if first.unlockHeight ≤ height then first.amount else 0) + due height rest := by
  unfold due
  by_cases h : first.unlockHeight ≤ height
  · rw [List.filter_cons_of_pos (by simpa [matured] using h), total_cons, if_pos h]
  · rw [List.filter_cons_of_neg (by simpa [matured] using h), if_neg h, Int.zero_add]

theorem due_insert (height : Nat) (slot : Slot) (slots : List Slot) :
    due height (insert slot slots) =
      (if slot.unlockHeight ≤ height then slot.amount else 0) + due height slots := by
  unfold due
  rw [total_filter_insert]
  simp only [matured, decide_eq_true_eq]

theorem Valid.due_nonneg (h : Valid slots) (height : Nat) : 0 ≤ due height slots :=
  (h.filter (matured height)).total_nonneg

/-- Joining the last slot makes no more due by a height than what joins, and that only if both were
to unlock by then. -/
theorem Valid.due_raiseLast_le (h : Valid slots) {amount : Int} (pos : 0 ≤ amount)
    (height unlockHeight : Nat) :
    due height (Slot.raiseLast amount unlockHeight slots) ≤
      (if unlockHeight ≤ height then amount else 0) + due height slots := by
  fun_induction Slot.raiseLast amount unlockHeight slots with
  | case1 =>
      change (0 : Int) ≤ _ + 0
      split <;> omega
  | case2 last =>
      obtain ⟨hlast, -⟩ := valid_cons.1 h
      rw [due_cons, due_cons]
      change (if max last.unlockHeight unlockHeight ≤ height then last.amount + amount else 0) +
        due height [] ≤ _
      -- the greater of the two heights decides when either amount unlocks
      by_cases hnew : unlockHeight ≤ height
      · by_cases hold : last.unlockHeight ≤ height
        · rw [if_pos (Nat.max_le.2 ⟨hold, hnew⟩), if_pos hnew, if_pos hold]
          omega
        · rw [if_neg fun hmax => hold (Nat.max_le.1 hmax).1, if_pos hnew, if_neg hold]
          omega
      · rw [if_neg fun hmax => hnew (Nat.max_le.1 hmax).2, if_neg hnew]
        split <;> omega
  | case3 first rest _ ih =>
      have hrest := ih (valid_cons.1 h).2.2
      rw [due_cons, due_cons]
      omega

/-- Taking back makes nothing more due. -/
theorem Valid.due_drain_le (h : Valid slots) (amount : Int) (height : Nat) :
    due height (Slot.drain amount slots) ≤ due height slots := by
  fun_induction Slot.drain amount slots with
  | case1 => exact Int.le_refl _
  | case2 => exact Int.le_refl _
  | case3 amount first rest _ _ ih =>
      obtain ⟨hfirst, -, hrest⟩ := valid_cons.1 h
      have hdrained := ih hrest
      rw [due_cons]
      split <;> omega
  | case4 amount first rest hpos _ =>
      rw [due_cons, due_cons]
      change (if first.unlockHeight ≤ height then first.amount - amount else 0) + _ ≤ _
      split <;> omega

/-- What is dropped at a height is due by every later one. -/
theorem due_filter_add_due {early height : Nat} (le : early ≤ height) (slots : List Slot) :
    due height (slots.filter fun slot => !slot.matured early) + due early slots =
      due height slots := by
  induction slots with
  | nil => rfl
  | cons first rest ih =>
      rw [due_cons early, due_cons height first]
      by_cases hearly : first.unlockHeight ≤ early
      · have hlate : first.unlockHeight ≤ height := Nat.le_trans hearly le
        rw [List.filter_cons_of_neg (by simpa [matured] using hearly), if_pos hearly, if_pos hlate]
        omega
      · rw [List.filter_cons_of_pos (by simpa [matured] using hearly), due_cons, if_neg hearly]
        omega

end Slot

/-! ### What a stake part has due -/

namespace StakePart

/-- What of a part unlocks by `height`, in either shape. -/
def due (height : Nat) (part : StakePart) : Int := Slot.due height part.schedule

variable {part : StakePart}

theorem Sound.due_nonneg (h : part.Sound) (height : Nat) : 0 ≤ part.due height :=
  h.adopt.slots_valid.due_nonneg height

/-- Taking back makes nothing more due. -/
theorem Sound.due_raise_le (h : part.Sound) (delta : Int) (height : Nat) :
    (UnstakePolicy.slots.raise part delta).due height ≤ part.due height := by
  rw [due, UnstakePolicy.schedule_raise]
  exact h.adopt.slots_valid.due_drain_le _ height

/-- A decrease makes no more due by a height than what it takes off the stake for that height. -/
theorem Sound.due_lower_le (h : part.Sound) {released : Int} (pos : 0 ≤ released)
    (unlockHeight slotMax height : Nat) :
    (UnstakePolicy.slots.lower part released unlockHeight slotMax).due height ≤
      (if unlockHeight ≤ height then released else 0) + part.due height := by
  rw [due, UnstakePolicy.schedule_lower]
  split
  · rw [Slot.due_insert]
    exact Int.le_refl _
  · exact h.adopt.slots_valid.due_raiseLast_le pos height unlockHeight

/-- A release takes out of what is due exactly what it drops. -/
theorem Sound.due_release (h : part.Sound) {early height : Nat} (le : early ≤ height) :
    (UnstakePolicy.slots.release part early).due height =
      part.due height - UnstakePolicy.slots.matured part early := by
  have hmatured : UnstakePolicy.slots.matured part early = Slot.due early part.schedule :=
    UnstakePolicy.matured_schedule h.unstake_nonneg early
  have hsplit := Slot.due_filter_add_due le part.schedule
  rw [due, UnstakePolicy.schedule_release, hmatured, due]
  omega

end StakePart

namespace Account

/-! ### What an account has due, and what a run pays and unstakes -/

/-- The balance, or nothing if the coin part is not loaded. -/
def balance (account : Account) : Int :=
  match account.coin with
  | some coin => coin.balance
  | none => 0

/-- The stake, or nothing if the stake part is not loaded. -/
def staked (account : Account) : Int :=
  match account.stake with
  | some part => part.stake
  | none => 0

/-- What is pending and unlocks by `height`. -/
def due (height : Nat) (account : Account) : Int :=
  match account.stake with
  | some part => part.due height
  | none => 0

/-- What an operation pays into the balance if it is a release. -/
def Operation.payout (account after : Account) : Operation → Int
  | .normalize _ => after.balance - account.balance
  | _ => 0

/-- What an operation takes off the stake if what it unstakes unlocks by `height`. -/
def Operation.unstake (height : Nat) (account after : Account) : Operation → Int
  | .setStake ctx _ =>
      if ctx.height + ctx.lockPeriod ≤ height then max 0 (account.staked - after.staked) else 0
  | _ => 0

/-- What the steps of a run add up to. -/
def sumSteps (worth : Account → Account → Operation → Int) (account : Account) :
    List Operation → Int
  | [] => 0
  | operation :: rest =>
      worth account (account.step operation) operation +
        sumSteps worth (account.step operation) rest

/-- What the releases of a run pay into the balance. -/
def paidOut : Account → List Operation → Int := sumSteps Operation.payout

/-- What the changes of stake of a run unstake with an unlock height up to `height`. -/
def unstakedBy (height : Nat) : Account → List Operation → Int :=
  sumSteps (Operation.unstake height)

/-- The heights as of which a run releases. -/
def releaseHeights (account : Account) : List Operation → List Nat
  | [] => []
  | .normalize revision :: rest =>
      account.height :: (account.step (.normalize revision)).releaseHeights rest
  | operation :: rest => (account.step operation).releaseHeights rest

/-- Every operation of a run that goes by a policy goes by the slot policy. -/
def SlotsOnly (operations : List Operation) : Prop :=
  ∀ revision ∈ operations.filterMap Operation.revision?, revision.hasMultipleUnstake = true

instance (operations : List Operation) : Decidable (SlotsOnly operations) :=
  inferInstanceAs (Decidable (∀ revision ∈ _, _))

variable {account after : Account} {operation : Operation} {height : Nat}

theorem due_of_loaded {part : StakePart} (h : account.stake = some part) (height : Nat) :
    account.due height = part.due height := by
  rw [due, h]

theorem staked_of_loaded {part : StakePart} (h : account.stake = some part) :
    account.staked = part.stake := by
  rw [staked, h]

theorem balance_of_loaded {coin : CoinPart} (h : account.coin = some coin) :
    account.balance = coin.balance := by
  rw [balance, h]

theorem balance_of_unloaded (h : account.coin = none) : account.balance = 0 := by
  rw [balance, h]

theorem balance_congr {other : Account}
    (h : account.coin.map CoinPart.balance = other.coin.map CoinPart.balance) :
    account.balance = other.balance := by
  unfold balance
  cases hcoin : account.coin with
  | none =>
      rw [hcoin, Option.map_none] at h
      rw [Option.map_eq_none_iff.1 h.symm]
  | some coin =>
      rw [hcoin, Option.map_some] at h
      obtain ⟨otherCoin, hother, hbalance⟩ := Option.map_eq_some_iff.1 h.symm
      rw [hother]
      exact hbalance.symm

@[simp] theorem due_synced (height : Nat) (account : Account) :
    account.synced.due height = account.due height := by
  rw [due, due, synced_stake]

@[simp] theorem staked_synced (account : Account) : account.synced.staked = account.staked := by
  rw [staked, staked, synced_stake]

@[simp] theorem balance_synced (account : Account) :
    account.synced.balance = account.balance :=
  balance_congr (synced_balance account)

theorem Sound.due_nonneg (h : account.Sound) (height : Nat) : 0 ≤ account.due height := by
  unfold due
  split
  · next part hstake => exact (h.stake_sound part hstake).due_nonneg height
  · exact Int.le_refl 0

theorem Operation.unstake_nonneg (height : Nat) (account after : Account) (operation : Operation) :
    0 ≤ operation.unstake height account after := by
  cases operation with
  | setStake ctx value =>
      simp only [Operation.unstake]
      split <;> omega
  | _ => exact Int.le_refl 0

/-! ### One step -/

/-- The account after a release, with what was due and what was paid. -/
theorem due_released (sound : account.Sound) {part : StakePart} (coin : Option CoinPart)
    (loaded : account.stake = some part) (le : account.height ≤ height) :
    (account.released .slots coin part).due height +
      UnstakePolicy.slots.matured part account.height = account.due height := by
  have hrelease := (sound.stake_sound part loaded).due_release le
  have hafter : (account.released .slots coin part).due height =
      (UnstakePolicy.slots.release part account.height).due height := by
    rw [released, due_synced, due]
  rw [hafter, hrelease, due_of_loaded loaded]
  omega

/-- **What a step pays out and leaves due was due before or is unstaked by it.** -/
theorem Effect.due_le (effect : Effect account operation after) (sound : account.Sound)
    (slots : ∀ revision, operation.revision? = some revision →
      revision.hasMultipleUnstake = true)
    (reached : ∀ revision, operation = .normalize revision → account.height ≤ height) :
    operation.payout account after + after.due height ≤
      account.due height + operation.unstake height account after := by
  have hunstake := operation.unstake_nonneg height account after
  cases effect with
  | deposit | withdraw | setHeight | moveDelegated | setDelegations =>
      change 0 + account.due height ≤ account.due height + 0
      omega
  | @raise ctx value coin part admitted _ _ =>
      have hpolicy : ctx.policy = .slots :=
        UnstakePolicy.ofRevision_eq_slots_iff.2 (slots _ rfl)
      have hraise := (sound.stake_sound part admitted.stake_loaded).due_raise_le
        (value - part.stake) height
      have hafter : (account.raised ctx.policy coin part value).due height =
          (UnstakePolicy.slots.raise part (value - part.stake)).due height := by
        rw [hpolicy, raised, due_synced, due]
      rw [hafter, due_of_loaded admitted.stake_loaded]
      change 0 + _ ≤ _
      omega
  | @lower ctx value coin part admitted lower _ =>
      have hpolicy : ctx.policy = .slots :=
        UnstakePolicy.ofRevision_eq_slots_iff.2 (slots _ rfl)
      have hlower := (sound.stake_sound part admitted.stake_loaded).due_lower_le
        (Int.sub_nonneg.2 (Int.le_of_lt lower)) ctx.unlockHeight ctx.slotMax height
      have hafter : (account.lowered ctx part value).due height =
          (UnstakePolicy.slots.lower part (part.stake - value) ctx.unlockHeight
            ctx.slotMax).due height := by
        rw [lowered, due_synced, due, hpolicy]
      have hstaked : (account.lowered ctx part value).staked = value := by
        rw [lowered, staked_synced]
        change part.stake - (part.stake - value) = value
        omega
      rw [hafter, due_of_loaded admitted.stake_loaded, Operation.unstake, hstaked,
        staked_of_loaded admitted.stake_loaded, Int.max_eq_right (by omega)]
      change 0 + _ ≤ _ + if ctx.unlockHeight ≤ height then _ else _
      omega
  | keep =>
      rw [due_synced]
      change 0 + account.due height ≤ _
      omega
  | @release revision coin part coin_loaded stake_loaded _ _ =>
      have hpolicy : UnstakePolicy.ofRevision revision = .slots :=
        UnstakePolicy.ofRevision_eq_slots_iff.2 (slots _ rfl)
      rw [hpolicy]
      have hdue := due_released sound
        (some { coin with
          balance := coin.balance + UnstakePolicy.slots.matured part account.height })
        stake_loaded (reached _ rfl)
      rw [Operation.payout, released, balance_synced, balance_of_loaded coin_loaded]
      change coin.balance + UnstakePolicy.slots.matured part account.height - coin.balance + _ ≤
        account.due height + 0
      rw [released] at hdue
      omega
  | @settle revision part stake_loaded none_matured =>
      have hpolicy : UnstakePolicy.ofRevision revision = .slots :=
        UnstakePolicy.ofRevision_eq_slots_iff.2 (slots _ rfl)
      rw [hpolicy]
      have hmatured := UnstakePolicy.matured_nonneg (sound.stake_sound part stake_loaded) .slots
        account.height
      have hdue := due_released sound account.coin stake_loaded (reached _ rfl)
      rw [Operation.payout, released, balance_synced]
      change account.balance - account.balance + _ ≤ account.due height + 0
      rw [released] at hdue
      omega
  | unstaked =>
      change account.balance - account.balance + account.due height ≤ account.due height + 0
      omega

/-! ### Whole runs -/

theorem mem_releaseHeights_cons {rest : List Operation}
    (h : height ∈ (account.step operation).releaseHeights rest) :
    height ∈ account.releaseHeights (operation :: rest) := by
  cases operation with
  | normalize revision => exact List.mem_cons_of_mem _ h
  | _ => exact h

/-- The same for every operation: one that is refused pays nothing and unstakes nothing. -/
theorem due_le_step (sound : account.Sound)
    (slots : ∀ revision, operation.revision? = some revision →
      revision.hasMultipleUnstake = true)
    (reached : ∀ revision, operation = .normalize revision → account.height ≤ height) :
    operation.payout account (account.step operation) + (account.step operation).due height ≤
      account.due height + operation.unstake height account (account.step operation) := by
  obtain hsame | effect := step_eq_or_effect account operation
  · have hunstake := operation.unstake_nonneg height account account
    have hpayout : operation.payout account account = 0 := by
      cases operation with
      | normalize => exact Int.sub_self _
      | _ => rfl
    rw [hsame, hpayout]
    omega
  · exact effect.due_le sound slots reached

/-- What a run pays and leaves due was due at its start or is unstaked by it. -/
theorem Sound.paidOut_add_due_le (sound : account.Sound) {operations : List Operation}
    (slots : SlotsOnly operations)
    (reached : ∀ released ∈ account.releaseHeights operations, released ≤ height) :
    account.paidOut operations + (account.run operations).due height ≤
      account.due height + account.unstakedBy height operations := by
  induction operations generalizing account with
  | nil =>
      change 0 + account.due height ≤ account.due height + 0
      omega
  | cons operation rest ih =>
      have hstep := @due_le_step account operation height sound
        (fun revision hrevision => slots revision (by
          rw [List.filterMap_cons_some hrevision]
          exact List.mem_cons_self))
        (by
          rintro revision rfl
          exact reached _ List.mem_cons_self)
      have hrest := ih (sound.step operation)
        (fun revision hmem => slots revision (mem_revisions_cons hmem))
        fun released hmem => reached released (mem_releaseHeights_cons hmem)
      change operation.payout account (account.step operation) +
        (account.step operation).paidOut rest + _ ≤
          _ + (operation.unstake height account (account.step operation) +
            (account.step operation).unstakedBy height rest)
      rw [run_cons]
      change (account.step operation).paidOut rest + ((account.step operation).run rest).due height ≤
        (account.step operation).due height + (account.step operation).unstakedBy height rest
        at hrest
      omega

/-- **Wherever a run under the slot policy starts from, what its releases pay into the balance, none
of them later than `height`, is at most what was pending with an unlock height up to `height` at
the start and what was unstaked with such an unlock height since.** -/
theorem paidOut_le (made : account.Made) (before : List Operation) {operations : List Operation}
    (slots : SlotsOnly operations)
    (reached : ∀ released ∈ (account.run before).releaseHeights operations, released ≤ height) :
    (account.run before).paidOut operations ≤
      (account.run before).due height + (account.run before).unstakedBy height operations := by
  have sound := run_sound made.sound before
  have hdue := (run_sound sound operations).due_nonneg height
  have hpaid := sound.paidOut_add_due_le slots reached
  omega

/-- Two unstakes for the heights 25 and 33, of which the second joins the first, and releases at the
heights 12 and 25: only the 30 that were pending at the start are paid. -/
def joiningRun : List Operation :=
  [.setHeight 12, .normalize ⟨9⟩, .setStake ⟨5, ⟨9⟩, 20, 1⟩ 20, .setStake ⟨13, ⟨9⟩, 20, 1⟩ 10,
    .setHeight 25, .normalize ⟨9⟩]

theorem paidOut_joiningRun :
    (small.run [.deposit 5]).paidOut joiningRun ≤
        (small.run [.deposit 5]).due 25 + (small.run [.deposit 5]).unstakedBy 25 joiningRun ∧
      (small.run [.deposit 5]).paidOut joiningRun = 30 ∧
      (small.run [.deposit 5]).unstakedBy 25 joiningRun = 30 :=
  ⟨paidOut_le small_made [.deposit 5] (by decide) (by decide), by decide, by decide⟩

end Account

end StakeLedger
