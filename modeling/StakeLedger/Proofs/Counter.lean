/-
**The count of what was unstaked.**

From a fresh stake part on, the count is the sum of all that accepted decreases took off the stake;
an increase and a release leave it alone.  No more is ever pending than was counted, so that nothing
else that is summed up in the part is greater than the count.  But the count has no bound itself:
the same funds may be staked and unstaked again and again, and with the sum the count leaves the
range of amounts.  Exactly then a run breaks off, at a decrease whose checks all passed: the stake
is lowered and the difference pending, while the count and the flag are what they were.

Main definitions:

* `StakeLedger.Account.takenOff` — what the changes of a run took off the stake;
* `StakeLedger.Account.cutShort`, `StakeLedger.Account.HalfDone` — the account that a decrease leaves
  which breaks off, and what is half done about it;
* `StakeLedger.Account.Counted` — **how an operation ends whose unstakes are counted**;
* `StakeLedger.Account.BrokenOff` — where a run breaks off and what that leaves.

Main results:

* `StakeLedger.Account.performCounting_counted` — an operation is refused, or does what it does
  without the count, or breaks off;
* `StakeLedger.Account.counts_run` — the count over a run;
* `StakeLedger.Account.BrokenOff.half_done` — what a run leaves that breaks off;
* `StakeLedger.Account.runCounting_of_le`, `StakeLedger.Account.runCounting_of_lt` — whether a run
  comes to its end;
* `StakeLedger.Account.unstakes_counted` — **what is counted, and when it cannot be**.
-/
import StakeLedger.Account.Counting
import StakeLedger.Proofs.FinalRelease

set_option autoImplicit false

namespace StakeLedger

open AccountM CountingM Stateful

/-! ### Running with the count -/

namespace CountingM

variable {α β : Type} {account after : Account} {x : AccountM α}

theorem ofChange_of_ok {a : α} (h : x account = (.ok a, after)) :
    ofChange x account = (.ok a, after) := by
  rw [ofChange, h]
  rfl

theorem ofChange_of_error {error : LedgerError} (h : x account = (.error error, after)) :
    ofChange x account = (.error (.refused error), after) := by
  rw [ofChange, h]
  rfl

/-- Changes in which nothing is counted make up such a change. -/
theorem ofChange_bind (x : AccountM α) (f : α → AccountM β) (account : Account) :
    ofChange (x >>= f) account = (do ofChange (f (← ofChange x)) : CountingM β) account := by
  obtain ⟨result, after, hx⟩ : ∃ result after, x account = (result, after) := ⟨_, _, rfl⟩
  cases result with
  | error error =>
      rw [bind_of_error (ofChange_of_error hx), ofChange_of_error (bind_of_error hx f)]
  | ok a => rw [bind_of_ok (ofChange_of_ok hx), ofChange, ofChange, bind_of_ok hx f]

end CountingM

/-- What is taken off without being counted leaves the count alone. -/
theorem UnstakePolicy.takeOff_totalUnstaked (policy : UnstakePolicy) (part : StakePart)
    (released : Int) (unlockHeight slotMax : Nat) :
    (policy.takeOff part released unlockHeight slotMax).totalUnstaked = part.totalUnstaked := by
  cases policy with
  | single => rfl
  | slots => exact StakePart.adopt_totalUnstaked part

namespace Account

variable {account after : Account} {ctx : StakingContext} {value : Int} {part : StakePart}

/-- The account whose stake is lowered to `value` when the difference cannot be counted. -/
def cutShort (account : Account) (ctx : StakingContext) (part : StakePart) (value : Int) : Account :=
  account.putStake
    (ctx.policy.takeOff part (part.stake - value) ctx.unlockHeight ctx.slotMax)

/-- What is left of an account by a decrease to `value` that is half done: the stake is lowered and
the difference pending, but it is not counted, and no flag shows it. -/
structure HalfDone (account : Account) (part : StakePart) (value : Int) (left : Account) : Prop where
  staked_eq : left.staked = value
  pending_eq : left.pending = part.pending + (part.stake - value)
  uncounted : ∃ moved, left.stake = some moved ∧ moved.totalUnstaked = part.totalUnstaked
  coin_eq : left.coin = account.coin

theorem halfDone_cutShort (room : ctx.policy = .slots → ctx.slotMax ≠ 0) :
    account.HalfDone part value (account.cutShort ctx part value) where
  staked_eq := by
    change part.stake - (part.stake - value) = value
    omega
  pending_eq := UnstakePolicy.pending_push room _ _
  uncounted := ⟨_, rfl, UnstakePolicy.takeOff_totalUnstaked _ _ _ _ _⟩
  coin_eq := rfl

/-- A change of stake is checked before the stake is moved. -/
theorem setStake_eq_checkStake (ctx : StakingContext) (value : Int) :
    setStake ctx value = (do
      let stake ← checkStake ctx value
      moveStake ctx stake value
      change synced) := by
  simp only [setStake, checkStake, bind_assoc, pure_bind]

/-- The checks are passed or not, and change nothing. -/
theorem checkStake_cases (account : Account) (ctx : StakingContext) (value : Int) :
    (∃ error, checkStake ctx value account = (.error error, account)) ∨
      ∃ part, account.stake = some part ∧
        checkStake ctx value account = (.ok part.stake, account) := by
  unfold checkStake
  by_cases hneg : value < 0
  · exact Or.inl ⟨_, bind_of_error (refuseIf_of hneg) _⟩
  by_cases hroom : ctx.policy = .slots ∧ ctx.slotMax = 0
  · rw [bind_of_ok (refuseIf_of_not hneg)]
    exact Or.inl ⟨_, bind_of_error (refuseIf_of hroom) _⟩
  rw [bind_of_ok (refuseIf_of_not hneg), bind_of_ok (refuseIf_of_not hroom)]
  cases hcoin : account.coinPart with
  | error error => exact Or.inl ⟨_, bind_of_error (view_eq hcoin) _⟩
  | ok coin =>
      rw [bind_of_ok (view_eq hcoin)]
      cases hstake : account.stake with
      | none => exact Or.inl ⟨_, bind_of_error (view_eq (by rw [stakePart, hstake])) _⟩
      | some part =>
          rw [bind_of_ok (view_eq (stakePart_of_loaded hstake))]
          cases funds coin.balance part.stake (ctx.policy.pending part) with
          | error error => exact Or.inl ⟨_, bind_of_error (ofResult_eq rfl) _⟩
          | ok available =>
              rw [bind_of_ok (ofResult_eq rfl)]
              by_cases hshort : available < value
              · exact Or.inl ⟨_, bind_of_error (refuseIf_of hshort) _⟩
              · exact Or.inr ⟨part, rfl, bind_of_ok (refuseIf_of_not hshort) _⟩

theorem count_apply (loaded : account.stake = some part) (released : Int) :
    count released account =
      if Amount.InRange (part.totalUnstaked + released) then
        (.ok (), account.putStake { part with totalUnstaked := part.totalUnstaked + released })
      else (.error .overflow, account) := by
  rw [count, bind_of_ok (ofChange_of_ok (view_eq (stakePart_of_loaded loaded)))]
  by_cases hfits : Amount.InRange (part.totalUnstaked + released)
  · rw [if_pos hfits, Amount.add?_eq_some_iff.2 ⟨rfl, hfits⟩]
    rfl
  · rw [if_neg hfits, Amount.add?_eq_none_iff.2 hfits]
    rfl

/-- Where the sum is an amount, a decrease ends as it does without the count. -/
theorem lowerCounting_apply (loaded : account.stake = some part) (ctx : StakingContext)
    (released : Int) :
    lowerCounting ctx released account =
      if maxHeight < ctx.unlockHeight then
        (.error (.refused (.invalidParameter .unlockHeightOverflow)), account)
      else if Amount.InRange (part.totalUnstaked + released) then
        (.ok (), account.putStake
          (ctx.policy.lower part released ctx.unlockHeight ctx.slotMax))
      else (.error .overflow, account.putStake
        (ctx.policy.takeOff part released ctx.unlockHeight ctx.slotMax)) := by
  rw [lowerCounting]
  by_cases hover : maxHeight < ctx.unlockHeight
  · rw [if_pos hover]
    exact bind_of_error (ofChange_of_error (refuseIf_of hover)) _
  · rw [if_neg hover, bind_of_ok (ofChange_of_ok (refuseIf_of_not hover))]
    refine (bind_of_ok (ofChange_of_ok (update_of_ok (stakePart_of_loaded loaded) rfl)) _).trans ?_
    -- the count is that of the part whose stake is lowered already
    refine (count_apply rfl released).trans ?_
    rw [UnstakePolicy.takeOff_totalUnstaked]
    rfl

/-- The operations that ask for a lower stake. -/
inductive Lowers (account : Account) : Operation → Prop
  | mk {ctx : StakingContext} {value : Int} {part : StakePart} (loaded : account.stake = some part)
      (lower : value < part.stake) : Lowers account (.setStake ctx value)

/-- Where the stake is not to be lowered, nothing is counted. -/
theorem setStakeCounting_of_not_lowers (h : ¬ account.Lowers (.setStake ctx value)) :
    setStakeCounting ctx value account = ofChange (setStake ctx value) account := by
  rw [setStake_eq_checkStake, ofChange_bind, setStakeCounting]
  obtain ⟨error, hrefused⟩ | ⟨part, hpart, hchecked⟩ := checkStake_cases account ctx value
  · rw [bind_of_error (ofChange_of_error hrefused), bind_of_error (ofChange_of_error hrefused)]
  · rw [bind_of_ok (ofChange_of_ok hchecked), bind_of_ok (ofChange_of_ok hchecked), ofChange_bind,
      moveCounting, if_neg fun hlower => h (.mk hpart hlower)]

/-- A decrease that is accepted is counted if the sum is an amount, and cut short if not. -/
theorem setStakeCounting_of_lower (loaded : account.stake = some part) (lower : value < part.stake)
    (ctx : StakingContext) :
    setStakeCounting ctx value account =
      match setStake ctx value account with
      | (.error error, left) => (.error (.refused error), left)
      | (.ok _, after) =>
          if Amount.InRange (part.totalUnstaked + (part.stake - value)) then (.ok (), after)
          else (.error .overflow, account.cutShort ctx part value) := by
  rw [setStake_eq_checkStake, setStakeCounting]
  obtain ⟨error, hrefused⟩ | ⟨found, hfound, hchecked⟩ := checkStake_cases account ctx value
  · rw [bind_of_error hrefused]
    exact bind_of_error (ofChange_of_error hrefused) _
  · cases loaded.symm.trans hfound
    have hlower := lowerCounting_apply loaded ctx (part.stake - value)
    rw [bind_of_ok hchecked, moveStake_of_lower loaded lower,
      bind_of_ok (ofChange_of_ok hchecked), moveCounting, if_pos lower]
    -- both look at the height first, and part only at the count
    by_cases hover : maxHeight < ctx.unlockHeight
    · rw [if_pos hover] at hlower ⊢
      exact bind_of_error hlower _
    by_cases hfits : Amount.InRange (part.totalUnstaked + (part.stake - value))
    · rw [if_neg hover, if_pos hfits] at hlower
      rw [if_neg hover]
      exact (bind_of_ok hlower _).trans (if_pos hfits).symm
    · rw [if_neg hover, if_neg hfits] at hlower
      rw [if_neg hover]
      exact (bind_of_error hlower _).trans (if_neg hfits).symm

/-! ### How an operation ends -/

/-- What an operation that changes the stake takes off it. -/
def Operation.takenOff (account after : Account) : Operation → Int
  | .setStake _ _ => max 0 (account.staked - after.staked)
  | _ => 0

/-- What the changes of a run took off the stake. -/
def takenOff : Account → List Operation → Int := sumSteps Operation.takenOff

/-- **How an operation ends whose unstakes are counted.** -/
inductive Counted (account : Account) : Operation → Except Halt Unit × Account → Prop
  | refused {operation : Operation} {error : LedgerError}
      (refused : account.perform operation = (.error error, account)) :
      Counted account operation (.error (.refused error), account)
  /-- An operation that is accepted leaves the count in the range in which it was. -/
  | counted {operation : Operation} {after : Account}
      (accepted : account.perform operation = (.ok (), after))
      (fits : ∀ part, account.stake = some part → Amount.InRange part.totalUnstaked →
        Amount.InRange (part.totalUnstaked + operation.takenOff account after)) :
      Counted account operation (.ok (), after)
  /-- A decrease that is accepted without the count breaks off where the count leaves the range. -/
  | overflow {ctx : StakingContext} {value : Int} {part : StakePart}
      (loaded : account.stake = some part) (lower : value < part.stake)
      (accepted : account.perform (.setStake ctx value) = (.ok (), account.lowered ctx part value))
      (exceeds : ¬ Amount.InRange (part.totalUnstaked + (part.stake - value))) :
      Counted account (.setStake ctx value) (.error .overflow, account.cutShort ctx part value)

variable {operation : Operation}

theorem Operation.takenOff_nonneg (account after : Account) (operation : Operation) :
    0 ≤ operation.takenOff account after := by
  cases operation with
  | setStake ctx value => exact Int.le_max_left 0 _
  | _ => exact Int.le_refl 0

theorem Operation.takenOff_of_le (h : account.staked ≤ after.staked) (operation : Operation) :
    operation.takenOff account after = 0 := by
  cases operation with
  | setStake ctx value =>
      rw [takenOff]
      omega
  | _ => rfl

theorem takenOff_nonneg (account : Account) (operations : List Operation) :
    0 ≤ account.takenOff operations := by
  induction operations generalizing account with
  | nil => exact Int.le_refl 0
  | cons operation rest ih =>
      exact Int.add_nonneg (operation.takenOff_nonneg _ _) (ih _)

theorem staked_lowered (account : Account) (ctx : StakingContext) (part : StakePart) (value : Int) :
    (account.lowered ctx part value).staked = value := by
  rw [lowered, staked_synced]
  change part.stake - (part.stake - value) = value
  omega

/-- A change to a lower stake takes off what lies between. -/
theorem Operation.takenOff_of_ge (h : after.staked ≤ account.staked) :
    (Operation.setStake ctx value).takenOff account after = account.staked - after.staked :=
  Int.max_eq_right (by omega)

theorem takenOff_lowered (loaded : account.stake = some part) (lower : value < part.stake) :
    (Operation.setStake ctx value).takenOff account (account.lowered ctx part value) =
      part.stake - value := by
  have hafter := staked_lowered account ctx part value
  have hbefore := staked_of_loaded loaded
  rw [Operation.takenOff_of_ge (by omega), hbefore, hafter]

/-- Apart from decreases, nothing is taken off the stake. -/
theorem Effect.takenOff_of_not_lowers (effect : Effect account operation after)
    (h : ¬ account.Lowers operation) : operation.takenOff account after = 0 := by
  cases effect with
  | @raise ctx value coin part admitted higher _ =>
      refine Operation.takenOff_of_le ?_ _
      rw [staked_of_loaded admitted.stake_loaded, raised, staked_synced]
      change part.stake ≤ part.stake + (value - part.stake)
      omega
  | lower admitted lower _ => exact absurd (.mk admitted.stake_loaded lower) h
  | keep => exact Operation.takenOff_of_le (Int.le_of_eq (staked_synced account).symm) _
  | _ => rfl

/-- Apart from decreases, operations end as they do without the count. -/
theorem counted_of_not_lowers (h : ¬ account.Lowers operation) :
    Counted account operation (account.performCounting operation) := by
  have hcounting : account.performCounting operation = ofChange operation.change account := by
    cases operation with
    | setStake ctx value => exact setStakeCounting_of_not_lowers h
    | _ => rfl
  rw [hcounting]
  obtain ⟨error, hrefused⟩ | ⟨after, haccepted, effect⟩ := perform_settled account operation
  · have hends : ofChange operation.change account = _ := ofChange_of_error hrefused
    rw [hends]
    exact .refused hrefused
  · have hends : ofChange operation.change account = _ := ofChange_of_ok haccepted
    rw [hends]
    refine .counted haccepted fun part _ hrange => ?_
    rwa [effect.takenOff_of_not_lowers h, Int.add_zero]

/-- A decrease is refused, or counted, or breaks off. -/
theorem counted_of_lower (loaded : account.stake = some part) (lower : value < part.stake) :
    Counted account (.setStake ctx value) (account.performCounting (.setStake ctx value)) := by
  have hcounting : account.performCounting (.setStake ctx value) = _ :=
    setStakeCounting_of_lower loaded lower ctx
  rw [hcounting]
  obtain ⟨error, hrefused⟩ | ⟨after, haccepted, effect⟩ :=
    perform_settled account (.setStake ctx value)
  · rw [show setStake ctx value account = _ from hrefused]
    exact .refused hrefused
  · obtain ⟨-, -, rfl⟩ := effect.eq_lowered loaded lower
    rw [show setStake ctx value account = _ from haccepted]
    change Counted account _ (if Amount.InRange _ then _ else _)
    split
    · next hfits =>
        refine .counted haccepted fun found hfound _ => ?_
        cases loaded.symm.trans hfound
        rwa [takenOff_lowered loaded lower]
    · next hover => exact .overflow loaded lower haccepted hover

/-- **An operation is refused, or does what it does without the count, or breaks off.** -/
theorem performCounting_counted (account : Account) (operation : Operation) :
    Counted account operation (account.performCounting operation) := by
  by_cases hlowers : account.Lowers operation
  · obtain ⟨loaded, lower⟩ := hlowers
    exact counted_of_lower loaded lower
  · exact counted_of_not_lowers hlowers

end Account

/-! ### The count over a run -/

/-- A part that has counted `total` as unstaked, of which what is pending is a part. -/
structure StakePart.Counts (part : StakePart) (total : Int) : Prop where
  totalUnstaked_eq : part.totalUnstaked = total
  pending_le : part.pending ≤ total

namespace StakePart

variable {part : StakePart} {total : Int}

theorem Counts.empty : Counts .empty 0 := ⟨rfl, Int.le_refl 0⟩

theorem Counts.raise (h : part.Counts total) (sound : part.Sound) {delta : Int} (pos : 0 ≤ delta)
    (policy : UnstakePolicy) : (policy.raise part delta).Counts total where
  totalUnstaked_eq := by
    refine Eq.trans ?_ h.totalUnstaked_eq
    cases policy with
    | single => rfl
    | slots => exact adopt_totalUnstaked part
  pending_le := by
    have hle := h.pending_le
    have hpending := UnstakePolicy.pending_nonneg sound policy
    rw [UnstakePolicy.pending_raise sound pos, UnstakePolicy.reclaimable]
    omega

theorem Counts.lower (h : part.Counts total) {policy : UnstakePolicy} {slotMax : Nat}
    (room : policy = .slots → slotMax ≠ 0) (released : Int) (unlockHeight : Nat) :
    (policy.lower part released unlockHeight slotMax).Counts (total + released) where
  totalUnstaked_eq := by rw [UnstakePolicy.lower, h.totalUnstaked_eq]
  pending_le := by
    have hle := h.pending_le
    rw [UnstakePolicy.pending_lower room]
    omega

theorem Counts.release (h : part.Counts total) (sound : part.Sound) (policy : UnstakePolicy)
    (height : Nat) : (policy.release part height).Counts total where
  totalUnstaked_eq := by rw [UnstakePolicy.totalUnstaked_release, h.totalUnstaked_eq]
  pending_le := by
    have hle := h.pending_le
    have hmatured := UnstakePolicy.matured_nonneg sound policy height
    rw [UnstakePolicy.pending_release sound]
    omega

end StakePart

namespace Account

variable {account after : Account} {operation : Operation} {part moved : StakePart} {total : Int}

/-- A move of the stake part counts what it takes off the stake. -/
theorem StakeMove.counts (move : StakeMove account operation part moved) (sound : part.Sound)
    (loaded : account.stake = some part) (stepped : after.stake = some moved)
    (h : part.Counts total) : moved.Counts (total + operation.takenOff account after) := by
  have hbefore := staked_of_loaded loaded
  have hafter := staked_of_loaded stepped
  -- only a decrease adds to the count, and it adds what it takes off
  cases move with
  | @raise ctx value _ _ _ higher _ =>
      change after.staked = part.stake + (value - part.stake) at hafter
      rw [Operation.takenOff_of_le (by omega), Int.add_zero]
      exact h.raise sound (by omega) ctx.policy
  | @lower ctx value _ _ admitted lower =>
      change after.staked = part.stake - (part.stake - value) at hafter
      have hvalue : after.staked = value := by omega
      rw [Operation.takenOff_of_ge (by omega), hbefore, hvalue]
      exact h.lower admitted.room _ _
  | release =>
      change StakePart.Counts _ (total + 0)
      rw [Int.add_zero]
      exact h.release sound _ account.height

/-- An operation, accepted or not, counts what it takes off the stake. -/
theorem counts_step (sound : account.Sound) (loaded : account.stake = some part)
    (h : part.Counts total) (operation : Operation) :
    ∃ moved, (account.step operation).stake = some moved ∧
      moved.Counts (total + operation.takenOff account (account.step operation)) := by
  obtain hsame | ⟨before, moved, hbefore, hmoved, move⟩ := stake_moves_step account operation
  · have hstaked : (account.step operation).staked = account.staked := by
      rw [staked, staked, hsame]
    refine ⟨part, hsame.trans loaded, ?_⟩
    rwa [Operation.takenOff_of_le (Int.le_of_eq hstaked.symm), Int.add_zero]
  · cases loaded.symm.trans hbefore
    exact ⟨moved, hmoved, move.counts (sound.stake_sound part loaded) loaded hmoved h⟩

/-- **The count over a run.** -/
theorem counts_run (sound : account.Sound) (loaded : account.stake = some part)
    (h : part.Counts total) (operations : List Operation) :
    ∃ last, (account.run operations).stake = some last ∧
      last.Counts (total + account.takenOff operations) := by
  induction operations generalizing account part total with
  | nil =>
      refine ⟨part, loaded, ?_⟩
      change part.Counts (total + 0)
      rwa [Int.add_zero]
  | cons operation rest ih =>
      obtain ⟨moved, hmoved, hstep⟩ := counts_step sound loaded h operation
      obtain ⟨last, hlast, hrest⟩ := ih (sound.step operation) hmoved hstep
      refine ⟨last, hlast, ?_⟩
      rwa [Int.add_assoc] at hrest

/-! ### Runs that break off -/

/-- **Where a run breaks off, and what that leaves.**  All that comes before ends as it does without
the count, and then comes a decrease that passes its checks and with which the count leaves the range
of amounts. -/
inductive BrokenOff (account : Account) : List Operation → Account → Prop
  | mk {before rest : List Operation} {ctx : StakingContext} {value : Int} {part : StakePart}
      (ended : account.runCounting before = .ok (account.run before))
      (loaded : (account.run before).stake = some part) (lower : value < part.stake)
      (accepted : (account.run before).perform (.setStake ctx value) =
        (.ok (), (account.run before).lowered ctx part value))
      (fits : part.totalUnstaked ≤ Amount.greatest)
      (exceeds : Amount.greatest < part.totalUnstaked + (part.stake - value)) :
      BrokenOff account (before ++ .setStake ctx value :: rest)
        ((account.run before).cutShort ctx part value)

variable {operations rest : List Operation} {left : Account}

/-- An operation that is refused is followed by the rest of the run. -/
theorem runCounting_cons_of_refused {error : LedgerError}
    (h : account.performCounting operation = (.error (.refused error), after))
    (rest : List Operation) :
    account.runCounting (operation :: rest) = after.runCounting rest := by
  rw [runCounting, h]

/-- And so is one that is accepted. -/
theorem runCounting_cons_of_ok (h : account.performCounting operation = (.ok (), after))
    (rest : List Operation) :
    account.runCounting (operation :: rest) = after.runCounting rest := by
  rw [runCounting, h]

/-- What a run leaves that breaks off is half done. -/
theorem BrokenOff.half_done (h : account.BrokenOff operations left) :
    ∃ before rest ctx value part, operations = before ++ .setStake ctx value :: rest ∧
      (account.run before).stake = some part ∧ value < part.stake ∧
      (account.run before).HalfDone part value left := by
  obtain ⟨-, loaded, lower, accepted, -, -⟩ := h
  obtain ⟨coin, admitted, -⟩ := (effect_of_perform_ok accepted).eq_lowered loaded lower
  exact ⟨_, _, _, _, _, rfl, loaded, lower, halfDone_cutShort admitted.room⟩

theorem BrokenOff.cons (h : (account.step operation).BrokenOff rest left)
    (ended : ∀ rest, account.runCounting (operation :: rest) =
      (account.step operation).runCounting rest) :
    account.BrokenOff (operation :: rest) left := by
  obtain ⟨hended, hloaded, hlower, haccepted, hfits, hover⟩ := h
  exact @BrokenOff.mk account (operation :: _) _ _ _ _ ((ended _).trans hended) hloaded hlower
    haccepted hfits hover

/-- An operation is followed by the rest of the run while the count fits, and breaks off where it
does not. -/
theorem runCounting_cons (loaded : account.stake = some part) (h : part.Counts total)
    (nonneg : 0 ≤ total) (fits : total ≤ Amount.greatest) (operation : Operation) :
    (total + operation.takenOff account (account.step operation) ≤ Amount.greatest ∧
      ∀ rest, account.runCounting (operation :: rest) =
        (account.step operation).runCounting rest) ∨
    (Amount.greatest < total + operation.takenOff account (account.step operation) ∧
      ∀ rest, ∃ left, account.runCounting (operation :: rest) = .error left ∧
        account.BrokenOff (operation :: rest) left) := by
  obtain ⟨outcome, after, hends⟩ :
    ∃ outcome after, account.performCounting operation = (outcome, after) := ⟨_, _, rfl⟩
  have htotal := h.totalUnstaked_eq
  have hcounted := performCounting_counted account operation
  rw [hends] at hcounted
  cases hcounted with
  | refused hrefused =>
      have hstep : account.step operation = account := by rw [step, hrefused]
      rw [hstep, Operation.takenOff_of_le (Int.le_refl _), Int.add_zero]
      exact Or.inl ⟨fits, runCounting_cons_of_refused hends⟩
  | counted haccepted hfits =>
      have hstep : account.step operation = after := by rw [step, haccepted]
      have hrange := hfits part loaded (Amount.inRange_of_le (by omega) (by omega))
      rw [hstep, ← htotal]
      exact Or.inl ⟨hrange.2, runCounting_cons_of_ok hends⟩
  | @overflow ctx value _ hloaded lower haccepted hover =>
      cases loaded.symm.trans hloaded
      have hstep : account.step (.setStake ctx value) = account.lowered ctx part value := by
        rw [step, haccepted]
      -- the sum is positive, so that it is out of the range at its upper end
      have hlt : Amount.greatest < part.totalUnstaked + (part.stake - value) := by
        refine Int.not_le.1 fun hle => hover (Amount.inRange_of_le ?_ hle)
        omega
      rw [hstep, takenOff_lowered loaded lower, ← htotal]
      refine Or.inr ⟨hlt, fun rest => ⟨_, by rw [runCounting, hends], ?_⟩⟩
      exact @BrokenOff.mk account [] rest ctx value part rfl loaded lower haccepted
        (htotal ▸ fits) hlt

/-- A run comes to its end while the sum of what it takes off the stake fits, and breaks off where it
does not. -/
theorem runCounting_settled (sound : account.Sound) (loaded : account.stake = some part)
    (h : part.Counts total) (nonneg : 0 ≤ total) (fits : total ≤ Amount.greatest)
    (operations : List Operation) :
    (total + account.takenOff operations ≤ Amount.greatest ∧
      account.runCounting operations = .ok (account.run operations)) ∨
    (Amount.greatest < total + account.takenOff operations ∧
      ∃ left, account.runCounting operations = .error left ∧
        account.BrokenOff operations left) := by
  induction operations generalizing account part total with
  | nil =>
      change (total + 0 ≤ Amount.greatest ∧ _) ∨ _
      rw [Int.add_zero]
      exact Or.inl ⟨fits, rfl⟩
  | cons operation rest ih =>
      change (total + (operation.takenOff account (account.step operation) +
          (account.step operation).takenOff rest) ≤ Amount.greatest ∧ _) ∨
        (Amount.greatest < total + (operation.takenOff account (account.step operation) +
          (account.step operation).takenOff rest) ∧ _)
      have hfirst := operation.takenOff_nonneg account (account.step operation)
      -- the count after the first operation is where the induction takes over
      obtain ⟨hfits, hrest⟩ | ⟨hover, hbroken⟩ := runCounting_cons loaded h nonneg fits operation
      · obtain ⟨moved, hmoved, hcounts⟩ := counts_step sound loaded h operation
        rw [← Int.add_assoc]
        obtain ⟨hle, hended⟩ | ⟨hlt, left, hleft, hbroken⟩ :=
          ih (sound.step operation) hmoved hcounts (by omega) hfits
        · exact Or.inl ⟨hle, (hrest rest).trans hended⟩
        · exact Or.inr ⟨hlt, left, (hrest rest).trans hleft, hbroken.cons hrest⟩
      · have hlater := takenOff_nonneg (account.step operation) rest
        exact Or.inr ⟨by omega, hbroken rest⟩

/-- **What is counted, and when it cannot be.**  After every run from a fresh stake part the count is
the sum of what accepted changes of stake took off it, and nothing beyond it is pending.  A run whose
sum is an amount comes to its end, counting or not.  A run whose sum is none breaks off at the
decrease with which it leaves the range: the stake of its account is lowered and the difference
pending, while the count and the flag are those from before. -/
theorem unstakes_counted (made : account.Made) (fresh : account.stake = some .empty)
    (operations : List Operation) :
    (∃ part, (account.run operations).stake = some part ∧
      part.totalUnstaked = account.takenOff operations ∧
      0 ≤ part.pending ∧ part.pending ≤ part.totalUnstaked) ∧
    (account.takenOff operations ≤ Amount.greatest →
      account.runCounting operations = .ok (account.run operations)) ∧
    (Amount.greatest < account.takenOff operations →
      ∃ left, account.runCounting operations = .error left ∧
        account.BrokenOff operations left) := by
  obtain ⟨last, hlast, hcounts⟩ := counts_run made.sound fresh StakePart.Counts.empty operations
  have hnonneg := ((run_sound made.sound operations).stake_sound last hlast).pending_nonneg
  have hruns := runCounting_settled made.sound fresh StakePart.Counts.empty (Int.le_refl 0)
    (by decide) operations
  rw [Int.zero_add] at hcounts hruns
  refine ⟨⟨last, hlast, hcounts.totalUnstaked_eq, hnonneg, ?_⟩, fun hfits => ?_, fun hover => ?_⟩
  · rw [hcounts.totalUnstaked_eq]
    exact hcounts.pending_le
  · obtain ⟨-, hended⟩ | ⟨hlt, -⟩ := hruns
    · exact hended
    · omega
  · obtain ⟨hle, -⟩ | ⟨-, hbroken⟩ := hruns
    · omega
    · exact hbroken

/-- Decreases by 30 under one policy and by 25 under the other, with an increase by 15 between them
that takes back some of the first. -/
def twiceLowered : List Operation :=
  [.deposit 100, .setStake ⟨0, ⟨5⟩, 10, 1⟩ 50, .setStake ⟨0, ⟨5⟩, 10, 1⟩ 20,
    .setStake ⟨1, ⟨9⟩, 10, 2⟩ 35, .setStake ⟨2, ⟨9⟩, 10, 2⟩ 10, .setHeight 11, .normalize ⟨9⟩]

theorem unstakes_counted_twiceLowered :
    (∃ part, (unused.run twiceLowered).stake = some part ∧ part.totalUnstaked = 55) ∧
      unused.runCounting twiceLowered = .ok (unused.run twiceLowered) := by
  obtain ⟨⟨part, hpart, hcount, -⟩, hended, -⟩ :=
    @unstakes_counted unused unused_fresh.made rfl twiceLowered
  exact ⟨⟨part, hpart, hcount.trans (by decide)⟩, hended (by decide)⟩

/-- All that there can be is staked, unstaked, staked again from what is pending and unstaked. -/
def allTwice : List Operation :=
  [.deposit Amount.greatest, .setStake ⟨0, ⟨9⟩, 10, 1⟩ Amount.greatest,
    .setStake ⟨0, ⟨9⟩, 10, 1⟩ 0, .setStake ⟨0, ⟨9⟩, 10, 1⟩ Amount.greatest,
    .setStake ⟨0, ⟨9⟩, 10, 1⟩ 0]

/-- **A run from a fresh account that breaks off**: everything is pending, which the flag does not
say, and the count knows only of the first time. -/
theorem count_overflows :
    unused.Made ∧ unused.stake = some .empty ∧ Amount.greatest < unused.takenOff allTwice ∧
      unused.runCounting allTwice = .error
        { unused with
          coin := some .empty
          stake := some { StakePart.empty with
            slots := [⟨Amount.greatest, 10⟩], totalUnstaked := Amount.greatest } } :=
  ⟨unused_fresh.made, rfl, by decide, rfl⟩

end Account

end StakeLedger
