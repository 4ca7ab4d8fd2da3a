/-
**A height beside nothing pending.**

In the single shape a height goes with an amount, and where there is no amount the height is zero.
The constructors see to that, and every operation of either policy keeps it.  A record may say
otherwise: of `[0, stake, 0, height]` the height is read as it stands.  Such a stray height is the
height of no unstake, and it stays: the slot policy has nothing to adopt, and a release nothing to
release.  Only a change of stake by the single policy writes the height anew and does away with it.

Main definitions:

* `StakeLedger.StakePart.Paired` — **a part whose single height goes with an amount**;
* `StakeLedger.StakePart.StrayHeight` — records with a height beside no amount;
* `StakeLedger.StakePart.HeightFollows` — what becomes of the single height;
* `StakeLedger.Account.movedSingly` — whether the stake was changed by the single policy.

Main results:

* `StakeLedger.StakePart.Made.paired_or` — only a record with a stray height makes a part that is not
  paired;
* `StakeLedger.Account.heightFollows_run` — what becomes of the single height over a run;
* `StakeLedger.Account.height_of_idle` — **where a height can stand beside nothing pending, and for
  how long**;
* `StakeLedger.Account.strayHeight_kept` — a stray height that a run does not touch.
-/
import StakeLedger.Proofs.Accepted
import StakeLedger.Proofs.Release

set_option autoImplicit false

namespace StakeLedger

open MsgPack (Value)

namespace StakePart

/-- Where no single amount is pending, there is no height for it. -/
def Paired (part : StakePart) : Prop := part.unstake = 0 → part.unstakeHeight = 0

instance (part : StakePart) : Decidable part.Paired := inferInstanceAs (Decidable (_ → _))

/-- The records `[0, stake, 0, height]` whose height is not zero. -/
inductive StrayHeight (part : StakePart) : Value → Prop
  | mk {stakeField unstakeField : Value} (stake_form : Field.AmountForm part.stake stakeField)
      (unstake_form : Field.AmountForm 0 unstakeField) (height_ne : part.unstakeHeight ≠ 0) :
      StrayHeight part (.array [.ofNat 0, stakeField, unstakeField, .ofNat part.unstakeHeight])

/-- What becomes of the single height while a part becomes another one, with changes of stake by the
single policy or without. -/
structure HeightFollows (singly : Bool) (part after : StakePart) : Prop where
  paired : part.Paired → after.Paired
  /-- The single policy writes the height. -/
  written : singly = true → after.Paired
  /-- Nothing else does while no single amount is pending. -/
  kept : part.unstake = 0 → singly = false →
    after.unstake = 0 ∧ after.unstakeHeight = part.unstakeHeight

variable {part moved after : StakePart}

/-! ### Parts that are made -/

theorem paired_of_ofSingle {stake unstake : Int} {height : Nat}
    (h : ofSingle stake unstake height = .ok part) : part.Paired := by
  obtain ⟨-, h⟩ := Results.refused_or_eq_ok.1 h
  obtain ⟨-, hpart⟩ := Results.refused_or_eq_ok.1 h
  cases hpart
  exact fun hidle => if_pos hidle

/-- A record is read as a paired part, or has a stray height. -/
theorem Record.paired_or {value : Value} (h : part.Record value) :
    part.Paired ∨ part.unstake = 0 ∧ part.StrayHeight value := by
  cases h with
  | slots => exact Or.inl fun _ => rfl
  | @single stake unstake height _ _ stake_form unstake_form =>
      by_cases hheight : height = 0
      · exact Or.inl fun _ => hheight
      by_cases hidle : unstake = 0
      · subst hidle
        exact Or.inr ⟨rfl, .mk stake_form unstake_form hheight⟩
      · exact Or.inl fun hzero => absurd hzero hidle

/-- **Only a record with a stray height makes a part that is not paired.** -/
theorem Made.paired_or (h : part.Made) :
    part.Paired ∨ part.unstake = 0 ∧
      ∃ bytes value, StakePart.ofBytes bytes = .ok part ∧ value.Form bytes ∧ part.StrayHeight value := by
  -- every constructor clears the height where there is no amount, and reading alone does not
  cases h with
  | empty => exact Or.inl fun _ => rfl
  | ofStake made => exact Or.inl (paired_of_ofSingle made)
  | ofSingle made => exact Or.inl (paired_of_ofSingle made)
  | ofSlots made =>
      obtain ⟨-, h⟩ := Results.refused_or_eq_ok.1 made
      obtain ⟨-, h⟩ := Results.refused_or_eq_ok.1 h
      obtain ⟨-, hpart⟩ := Results.refused_or_eq_ok.1 h
      cases hpart
      exact Or.inl fun _ => rfl
  | @ofBytes bytes _ made =>
      obtain ⟨value, hform, hrecord⟩ := StakePart.ofBytes_eq_ok_iff.1 made
      obtain hpaired | ⟨hidle, hstray⟩ := hrecord.paired_or
      · exact Or.inl hpaired
      · exact Or.inr ⟨hidle, bytes, value, made, hform, hstray⟩

/-! ### What the policies do to the single height -/

theorem Paired.adopt (h : part.Paired) : part.adopt.Paired := by
  intro _
  by_cases hidle : part.unstake = 0
  · rw [adopt_of_unstake_eq_zero hidle]
    exact h hidle
  · rw [StakePart.adopt, if_neg hidle]

theorem HeightFollows.refl (part : StakePart) : HeightFollows false part part where
  paired := id
  written := nofun
  kept hidle _ := ⟨hidle, rfl⟩

theorem HeightFollows.trans {earlier later : Bool} (h : HeightFollows earlier part moved)
    (h' : HeightFollows later moved after) : HeightFollows (earlier || later) part after where
  paired hpart := h'.paired (h.paired hpart)
  written hsingly := by
    obtain hearlier | hlater := Bool.or_eq_true_iff.1 hsingly
    · exact h'.paired (h.written hearlier)
    · exact h'.written hlater
  kept hidle hsingly := by
    obtain ⟨hearlier, hlater⟩ := Bool.or_eq_false_iff.1 hsingly
    obtain ⟨hunstake, hheight⟩ := h.kept hidle hearlier
    obtain ⟨hafter, hkept⟩ := h'.kept hunstake hlater
    exact ⟨hafter, hkept.trans hheight⟩

/-- A part whose single shape is that of an adopted one. -/
theorem HeightFollows.of_adopt (hunstake : after.unstake = part.adopt.unstake)
    (hheight : after.unstakeHeight = part.adopt.unstakeHeight) :
    HeightFollows false part after where
  paired hpart hidle := by
    rw [hheight]
    exact hpart.adopt (hunstake ▸ hidle)
  written := nofun
  kept hidle _ := by
    rw [hunstake, hheight, adopt_of_unstake_eq_zero hidle]
    exact ⟨hidle, rfl⟩

/-- A part whose height is written. -/
theorem HeightFollows.of_paired (h : after.Paired) : HeightFollows true part after where
  paired _ := h
  written _ := h
  kept := nofun

open UnstakePolicy

theorem heightFollows_raise (policy : UnstakePolicy) (part : StakePart) (delta : Int) :
    HeightFollows (decide (policy = .single)) part (policy.raise part delta) := by
  cases policy with
  | single => exact .of_paired fun hidle => if_pos hidle
  | slots => exact .of_adopt rfl rfl

/-- A decrease leaves an amount pending in the single shape, or does not use that shape. -/
theorem heightFollows_lower (sound : part.Sound) {released : Int} (pos : 0 < released)
    (policy : UnstakePolicy) (unlockHeight slotMax : Nat) :
    HeightFollows (decide (policy = .single)) part
      (policy.lower part released unlockHeight slotMax) := by
  cases policy with
  | single =>
      refine .of_paired fun hidle => ?_
      have hnonneg := sound.unstake_nonneg
      change part.unstake + released = 0 at hidle
      omega
  | slots => exact .of_adopt rfl rfl

theorem heightFollows_release (policy : UnstakePolicy) (part : StakePart) (height : Nat) :
    HeightFollows false part (policy.release part height) := by
  cases policy with
  | single =>
      rw [release_single]
      split
      · next hunlocked =>
          obtain ⟨hpos, -⟩ := hunlocked
          exact ⟨fun _ _ => rfl, nofun, fun hidle => absurd hidle (by omega)⟩
      · exact .refl part
  | slots => exact .of_adopt rfl rfl

end StakePart

/-! ### Runs -/

namespace Account

open StakePart (HeightFollows)

/-- Whether an operation changes the stake by the single policy. -/
def Operation.movesSingly (account after : Account) : Operation → Bool
  | .setStake ctx _ => decide (after.staked ≠ account.staked) && decide (ctx.policy = .single)
  | _ => false

/-- Whether the stake is changed by the single policy in the course of a run. -/
def movedSingly (account : Account) : List Operation → Bool
  | [] => false
  | operation :: rest =>
      operation.movesSingly account (account.step operation) ||
        (account.step operation).movedSingly rest

variable {account after : Account} {operation : Operation} {part last : StakePart}

theorem Operation.movesSingly_of_staked_eq (h : after.staked = account.staked)
    (operation : Operation) : operation.movesSingly account after = false := by
  cases operation with
  | setStake ctx value => simp only [movesSingly, h, ne_eq, not_true_eq_false, decide_false,
      Bool.false_and]
  | _ => rfl

theorem Operation.movesSingly_of_staked_ne {ctx : StakingContext} {value : Int}
    (h : after.staked ≠ account.staked) :
    (Operation.setStake ctx value).movesSingly account after = decide (ctx.policy = .single) := by
  rw [movesSingly, decide_eq_true h, Bool.true_and]

/-- What a move of the stake part makes of the single height. -/
theorem StakeMove.heightFollows {moved : StakePart} (move : StakeMove account operation part moved)
    (sound : part.Sound) (loaded : account.stake = some part) (stepped : after.stake = some moved) :
    HeightFollows (operation.movesSingly account after) part moved := by
  have hbefore := staked_of_loaded loaded
  have hafter := staked_of_loaded stepped
  cases move with
  | @raise ctx value _ _ _ higher _ =>
      change after.staked = part.stake + (value - part.stake) at hafter
      rw [Operation.movesSingly_of_staked_ne (by omega)]
      exact StakePart.heightFollows_raise ctx.policy part _
  | @lower ctx value _ _ _ lower =>
      change after.staked = part.stake - (part.stake - value) at hafter
      rw [Operation.movesSingly_of_staked_ne (by omega)]
      exact StakePart.heightFollows_lower sound (by omega) ctx.policy _ _
  | release => exact StakePart.heightFollows_release _ part account.height

/-- What an operation, accepted or not, makes of the single height. -/
theorem heightFollows_step (sound : account.Sound) (loaded : account.stake = some part)
    (operation : Operation) :
    ∃ moved, (account.step operation).stake = some moved ∧
      HeightFollows (operation.movesSingly account (account.step operation)) part moved := by
  obtain hsame | ⟨before, moved, hbefore, hmoved, move⟩ := stake_moves_step account operation
  · have hstaked : (account.step operation).staked = account.staked := by
      rw [staked, staked, hsame]
    refine ⟨part, hsame.trans loaded, ?_⟩
    rw [Operation.movesSingly_of_staked_eq hstaked]
    exact .refl part
  · cases loaded.symm.trans hbefore
    exact ⟨moved, hmoved, move.heightFollows (sound.stake_sound part loaded) loaded hmoved⟩

/-- **What becomes of the single height over a run.** -/
theorem heightFollows_run (sound : account.Sound) (loaded : account.stake = some part)
    (operations : List Operation) :
    ∃ last, (account.run operations).stake = some last ∧
      HeightFollows (account.movedSingly operations) part last := by
  induction operations generalizing account part with
  | nil => exact ⟨part, loaded, .refl part⟩
  | cons operation rest ih =>
      obtain ⟨moved, hmoved, hstep⟩ := heightFollows_step sound loaded operation
      obtain ⟨last, hlast, hrest⟩ := ih (sound.step operation) hmoved
      exact ⟨last, hlast, hstep.trans hrest⟩

/-- **Where a height can stand beside nothing pending, and for how long.**  A part that is made is
paired, or it was read from a record with a stray height.  A paired part stays paired over every run.
A stray height stays as it is until the single policy changes the stake, and from then on the part
is paired. -/
theorem height_of_idle (made : account.Made) (loaded : account.stake = some part)
    (operations : List Operation) (final : (account.run operations).stake = some last) :
    (part.Paired ∨ part.unstake = 0 ∧
      ∃ bytes value, StakePart.ofBytes bytes = .ok part ∧ value.Form bytes ∧
        part.StrayHeight value) ∧
    (part.Paired → last.Paired) ∧
    (account.movedSingly operations = true → last.Paired) ∧
    (part.unstake = 0 → account.movedSingly operations = false →
      last.unstake = 0 ∧ last.unstakeHeight = part.unstakeHeight) := by
  obtain ⟨_, hlast, hfollows⟩ := heightFollows_run made.sound loaded operations
  cases final.symm.trans hlast
  exact ⟨(made.stake_made part loaded).paired_or, hfollows.paired, hfollows.written,
    hfollows.kept⟩

/-- A record with a stake of 10 and with nothing pending until height 7. -/
def strayRecord : Bytes := [0x94, 0x00, 0x0a, 0x00, 0x07]

/-- An account with the stake part of that record and a balance of 100. -/
def stray : Account where
  address := small.address
  height := 50
  revision := .multipleUnstake
  coin := some { CoinPart.empty with balance := 100 }
  stake := some { StakePart.empty with stake := 10, unstakeHeight := 7 }
  delegation := none

theorem ofBytes_strayRecord :
    StakePart.ofBytes strayRecord = .ok { StakePart.empty with stake := 10, unstakeHeight := 7 } :=
  rfl

theorem stray_made : stray.Made where
  coin_made := by
    rintro _ ⟨⟩
    exact @CoinPart.Made.ofBalance 100 _ rfl
  stake_made := by
    rintro _ ⟨⟩
    exact .ofBytes ofBytes_strayRecord

/-- An increase, a decrease and releases by the slot policy, and a release by the single one. -/
def slotRun : List Operation :=
  [.setStake ⟨5, ⟨9⟩, 20, 2⟩ 20, .setStake ⟨6, ⟨9⟩, 20, 2⟩ 15, .normalize ⟨9⟩, .normalize ⟨5⟩]

theorem height_of_idle_stray :
    (∃ last, (stray.run slotRun).stake = some last ∧ last.unstake = 0 ∧ last.unstakeHeight = 7) ∧
      ∃ last, (stray.run (slotRun ++ [.setStake ⟨7, ⟨5⟩, 20, 2⟩ 30])).stake = some last ∧
        last.Paired := by
  obtain ⟨-, -, -, hkept⟩ := @height_of_idle stray _ _ stray_made rfl slotRun rfl
  obtain ⟨-, -, hwritten, -⟩ := @height_of_idle stray _ _ stray_made rfl
    (slotRun ++ [.setStake ⟨7, ⟨5⟩, 20, 2⟩ 30]) rfl
  exact ⟨⟨_, rfl, hkept rfl (by decide)⟩, _, rfl, hwritten (by decide)⟩

/-- **A height beside nothing pending**, read from a record and left as it is by changes of stake and
by releases at a height beyond it. -/
theorem strayHeight_kept :
    StakePart.ofBytes strayRecord = .ok { StakePart.empty with stake := 10, unstakeHeight := 7 } ∧
      (stray.run slotRun).stake =
        some { stake := 15, unstake := 0, unstakeHeight := 7, slots := [], totalUnstaked := 5 } :=
  ⟨ofBytes_strayRecord, by decide⟩

end Account

end StakeLedger
