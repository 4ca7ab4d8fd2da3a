/-
**How a stake part looks after any run.**

As long as the revisions of a run never fall, pending unstakes are in one shape: the single amount
is used until a revision knows several unstakes, is adopted as a slot then, and is never used again.
This keeps all sums in the range of amounts, and it is why adopting the single amount never takes a
slot beyond the maximum.

Main definitions:

* `StakeLedger.UnstakePolicy.Covers` — a policy knows all that a part keeps pending;
* `StakeLedger.Account.WellFormed` — what holds of an account whose parts are made;
* `StakeLedger.Account.Ascending` — operations whose revisions never fall.

Main results:

* `StakeLedger.Account.wellFormed_of_ascending` — at every point of a run of ascending operations
  the account is well-formed and has no more slots than its changes of stake allow.
-/
import StakeLedger.Proofs.Soundness

set_option autoImplicit false

namespace StakeLedger

/-! ### Policies and the shape of a part -/

namespace UnstakePolicy

/-- The policy knows all that the part keeps pending; the single policy knows no slots. -/
def Covers (policy : UnstakePolicy) (part : StakePart) : Prop :=
  policy = .single → part.slots = []

variable {policy : UnstakePolicy} {part : StakePart}

theorem Covers.pending_eq (h : policy.Covers part) : policy.pending part = part.pending := by
  cases policy with
  | single =>
      change part.unstake = part.unstake + Slot.total part.slots
      rw [h rfl, Slot.total_nil, Int.add_zero]
  | slots => rfl

/-- After an unstake what is pending is in one shape. -/
theorem Covers.one_shape_push (h : policy.Covers part) (amount : Int) (unlockHeight slotMax : Nat) :
    (policy.push part amount unlockHeight slotMax).unstake = 0 ∨
      (policy.push part amount unlockHeight slotMax).slots = [] := by
  cases policy with
  | single => exact Or.inr (h rfl)
  | slots => exact Or.inl (StakePart.adopt_unstake part)

theorem Covers.one_shape_reclaim (h : policy.Covers part) (amount : Int) :
    (policy.reclaim part amount).unstake = 0 ∨ (policy.reclaim part amount).slots = [] := by
  cases policy with
  | single => exact Or.inr (h rfl)
  | slots => exact Or.inl (StakePart.adopt_unstake part)

theorem Covers.one_shape_release (h : policy.Covers part) (height : Nat) :
    (policy.release part height).unstake = 0 ∨ (policy.release part height).slots = [] := by
  cases policy with
  | single =>
      refine Or.inr ?_
      simp only [release]
      split
      · exact h rfl
      · exact h rfl
  | slots => exact Or.inl (StakePart.adopt_unstake part)

theorem ofRevision_eq_slots_iff {revision : Revision} :
    ofRevision revision = .slots ↔ revision.hasMultipleUnstake = true := by
  unfold ofRevision
  split
  · next h => simp [h]
  · next h => simp [h]

/-- Once slots are kept they are kept at every later revision. -/
theorem ofRevision_of_le {revision later : Revision} (h : revision.hasMultipleUnstake = true)
    (le : revision ≤ later) : ofRevision later = .slots :=
  ofRevision_eq_slots_iff.2 (Revision.hasMultipleUnstake_of_le h le)

/-- Slots that are not left as they are show a policy that knows slots. -/
theorem slots_raise_or (policy : UnstakePolicy) (part : StakePart) (delta : Int) :
    policy = .slots ∨ (policy.raise part delta).slots = part.slots := by
  cases policy with
  | single => exact Or.inr rfl
  | slots => exact Or.inl rfl

theorem slots_lower_or (policy : UnstakePolicy) (part : StakePart) (released : Int)
    (unlockHeight slotMax : Nat) :
    policy = .slots ∨ (policy.lower part released unlockHeight slotMax).slots = part.slots := by
  cases policy with
  | single => exact Or.inr rfl
  | slots => exact Or.inl rfl

theorem slots_release_or (policy : UnstakePolicy) (part : StakePart) (height : Nat) :
    policy = .slots ∨ (policy.release part height).slots = part.slots := by
  cases policy with
  | single =>
      refine Or.inr ?_
      simp only [release]
      split <;> rfl
  | slots => exact Or.inl rfl

end UnstakePolicy

/-! ### The number of slots -/

namespace StakePart

variable {part : StakePart}

/-- Adopting the single amount takes one slot at most, since there is none before. -/
theorem WellFormed.length_adopt_le (h : part.WellFormed) {bound : Nat} (pos : 1 ≤ bound) :
    part.adopt.slots.length ≤ max bound part.slots.length := by
  unfold adopt
  split
  · exact Nat.le_max_right _ _
  · next hne =>
      -- the amount is not zero, and so there are no slots beside it
      obtain hzero | hnil := h.one_shape
      · exact absurd hzero hne
      · rw [hnil]
        exact Nat.le_trans pos (Nat.le_max_left _ _)

theorem WellFormed.length_push_le (h : part.WellFormed) (policy : UnstakePolicy) (amount : Int)
    (unlockHeight : Nat) {slotMax bound : Nat} (pos : 1 ≤ bound)
    (room : policy = .slots → slotMax ≤ bound) :
    (policy.push part amount unlockHeight slotMax).slots.length ≤
      max bound part.slots.length := by
  have hadopt := h.length_adopt_le pos
  cases policy with
  | single => exact Nat.le_max_right _ _
  | slots =>
      have hmax := room rfl
      simp only [UnstakePolicy.push]
      split
      · next hroom =>
          rw [Slot.length_insert]
          omega
      · rw [Slot.length_raiseLast]
        exact hadopt

theorem WellFormed.length_reclaim_le (h : part.WellFormed) (policy : UnstakePolicy) (amount : Int)
    {bound : Nat} (pos : 1 ≤ bound) :
    (policy.reclaim part amount).slots.length ≤ max bound part.slots.length := by
  cases policy with
  | single => exact Nat.le_max_right _ _
  | slots => exact Nat.le_trans (Slot.length_drain_le _ _) (h.length_adopt_le pos)

theorem WellFormed.length_release_le (h : part.WellFormed) (policy : UnstakePolicy) (height : Nat)
    {bound : Nat} (pos : 1 ≤ bound) :
    (policy.release part height).slots.length ≤ max bound part.slots.length := by
  cases policy with
  | single =>
      simp only [UnstakePolicy.release]
      split
      · exact Nat.le_max_right _ _
      · exact Nat.le_max_right _ _
  | slots => exact Nat.le_trans (List.length_filter_le _ _) (h.length_adopt_le pos)

/-! ### Well-formed parts stay well-formed -/

open UnstakePolicy

/-- An increase that the balance can pay stays in the range that all funds together are in. -/
theorem WellFormed.raise (h : part.WellFormed) {policy : UnstakePolicy}
    (covers : policy.Covers part) {balance delta : Int} (pos : 0 ≤ delta)
    (paid : policy.payable part delta ≤ balance)
    (in_range : balance + part.stake + part.pending ≤ Amount.greatest) :
    (policy.raise part delta).WellFormed where
  toSound := h.toSound.raise pos policy
  fits := by
    have hpending := pending_raise h.toSound pos policy
    have hpaid : delta - policy.reclaimable part delta ≤ balance := paid
    rw [hpending]
    change part.stake + delta + (part.pending - policy.reclaimable part delta) ≤ _
    omega
  one_shape := covers.one_shape_reclaim _

/-- A decrease leaves the sum of stake and pending unstakes as it is. -/
theorem WellFormed.lower (h : part.WellFormed) {policy : UnstakePolicy}
    (covers : policy.Covers part) {released : Int} {slotMax : Nat} (pos : 0 < released)
    (enough : released ≤ part.stake)
    (room : policy = .slots → slotMax ≠ 0) (unlockHeight : Nat) :
    (policy.lower part released unlockHeight slotMax).WellFormed where
  toSound := h.toSound.lower pos enough policy unlockHeight slotMax
  fits := by
    have hfits := h.fits
    rw [pending_lower room]
    change part.stake - released + (part.pending + released) ≤ _
    omega
  one_shape := covers.one_shape_push _ _ _

theorem WellFormed.release (h : part.WellFormed) {policy : UnstakePolicy}
    (covers : policy.Covers part) (height : Nat) : (policy.release part height).WellFormed where
  toSound := h.toSound.release policy height
  fits := by
    have hfits := h.fits
    have hmatured := matured_nonneg h.toSound policy height
    rw [release_stake, pending_release h.toSound]
    omega
  one_shape := covers.one_shape_release height

end StakePart

/-! ### Accounts -/

namespace Account

/-- An account with no negative balance and with a well-formed stake part, as far as they are
loaded. -/
structure WellFormed (account : Account) : Prop where
  balance_nonneg : ∀ coin, account.coin = some coin → 0 ≤ coin.balance
  stake_wellFormed : ∀ part, account.stake = some part → part.WellFormed

/-- How many slots are in use. -/
def slotCount (account : Account) : Nat :=
  match account.stake with
  | some part => part.slots.length
  | none => 0

/-- The revision that an operation goes by, if it goes by any. -/
def Operation.revision? : Operation → Option Revision
  | .setStake ctx _ => some ctx.revision
  | .normalize revision => some revision
  | _ => none

/-- Operations whose revisions never fall, and know several unstakes if the account has slots. -/
structure Ascending (account : Account) (operations : List Operation) : Prop where
  pairwise : (operations.filterMap Operation.revision?).Pairwise (· ≤ ·)
  slots_known : ∀ part, account.stake = some part → part.slots ≠ [] →
    ∀ revision ∈ operations.filterMap Operation.revision?, revision.hasMultipleUnstake = true

/-- The operation goes by a policy that covers the stake part. -/
def Covered (account : Account) (operation : Operation) : Prop :=
  ∀ revision part, operation.revision? = some revision → account.stake = some part →
    (UnstakePolicy.ofRevision revision).Covers part

variable {account after : Account} {operation : Operation}

theorem Made.wellFormed (h : account.Made) : account.WellFormed where
  balance_nonneg coin hcoin := (h.coin_made coin hcoin).balance_nonneg
  stake_wellFormed part hstake := (h.stake_made part hstake).wellFormed

theorem WellFormed.sound (h : account.WellFormed) : account.Sound where
  balance_nonneg := h.balance_nonneg
  stake_sound part hstake := (h.stake_wellFormed part hstake).toSound

theorem slotCount_of_loaded {part : StakePart} (h : account.stake = some part) :
    account.slotCount = part.slots.length := by
  rw [slotCount, h]

/-! ### One step -/

/-- A move by a policy that covers the stake part keeps it well-formed. -/
theorem StakeMove.wellFormed {part moved : StakePart}
    (move : StakeMove account operation part moved) (h : part.WellFormed)
    (loaded : account.stake = some part) (covered : account.Covered operation) : moved.WellFormed := by
  cases move with
  | @raise ctx value coin _ admitted higher paid =>
      have covers : ctx.policy.Covers part := covered _ part rfl loaded
      -- the funds were counted by the policy; only a policy that covers the part counts all of it
      have hrange := admitted.in_range
      rw [covers.pending_eq] at hrange
      exact h.raise covers (by omega) paid hrange
  | @lower ctx value coin _ admitted lower =>
      have covers : ctx.policy.Covers part := covered _ part rfl loaded
      have hvalue := admitted.value_nonneg
      exact h.lower covers (by omega) (by omega) admitted.room _
  | @release revision _ => exact h.release (covered revision part rfl loaded) account.height

/-- A move leads to no more slots than there were or than its change of stake allows. -/
theorem StakeMove.length_le {part moved : StakePart} (move : StakeMove account operation part moved)
    (h : part.WellFormed) {bound : Nat} (pos : 1 ≤ bound)
    (room : ∀ ctx value, operation = .setStake ctx value → ctx.policy = .slots →
      ctx.slotMax ≤ bound) :
    moved.slots.length ≤ max bound part.slots.length := by
  cases move with
  | raise => exact h.length_reclaim_le _ _ pos
  | lower => exact h.length_push_le _ _ _ pos (room _ _ rfl)
  | release => exact h.length_release_le _ _ pos

/-- Slots after a move were there before, or come from an operation that knows several unstakes. -/
theorem StakeMove.slots_known {part moved : StakePart}
    (move : StakeMove account operation part moved) (hslots : moved.slots ≠ []) :
    part.slots ≠ [] ∨
      ∃ revision, operation.revision? = some revision ∧ revision.hasMultipleUnstake = true := by
  cases move with
  | @raise ctx value _ _ _ _ _ =>
      obtain hpolicy | hsame := UnstakePolicy.slots_raise_or ctx.policy part (value - part.stake)
      · exact Or.inr ⟨_, rfl, UnstakePolicy.ofRevision_eq_slots_iff.1 hpolicy⟩
      · exact Or.inl (hsame ▸ hslots)
  | @lower ctx value _ _ _ _ =>
      obtain hpolicy | hsame := UnstakePolicy.slots_lower_or ctx.policy part (part.stake - value)
        ctx.unlockHeight ctx.slotMax
      · exact Or.inr ⟨_, rfl, UnstakePolicy.ofRevision_eq_slots_iff.1 hpolicy⟩
      · exact Or.inl (hsame ▸ hslots)
  | @release revision _ =>
      obtain hpolicy | hsame := UnstakePolicy.slots_release_or (.ofRevision revision) part
        account.height
      · exact Or.inr ⟨_, rfl, UnstakePolicy.ofRevision_eq_slots_iff.1 hpolicy⟩
      · exact Or.inl (hsame ▸ hslots)

/-- An effect by a policy that covers the stake part keeps the account well-formed. -/
theorem WellFormed.effect (h : account.WellFormed) (covered : account.Covered operation)
    (effect : Effect account operation after) : after.WellFormed := by
  refine ⟨(h.sound.effect effect).balance_nonneg, fun found hfound => ?_⟩
  obtain hsame | ⟨part, moved, hpart, hmoved, move⟩ := effect.stake_moves
  · exact h.stake_wellFormed found (hsame ▸ hfound)
  · cases hfound.symm.trans hmoved
    exact move.wellFormed (h.stake_wellFormed part hpart) hpart covered

/-- A change of stake that uses slots is accepted only if there may be one. -/
theorem Effect.slotMax_pos {ctx : StakingContext} {value : Int}
    (effect : Effect account (.setStake ctx value) after) (slots : ctx.policy = .slots) :
    1 ≤ ctx.slotMax := by
  cases effect with
  | raise admitted _ _ => exact Nat.one_le_iff_ne_zero.2 (admitted.room slots)
  | lower admitted _ _ => exact Nat.one_le_iff_ne_zero.2 (admitted.room slots)
  | keep admitted _ => exact Nat.one_le_iff_ne_zero.2 (admitted.room slots)

theorem WellFormed.slotCount_le (h : account.WellFormed) (effect : Effect account operation after)
    {bound : Nat} (pos : 1 ≤ bound)
    (room : ∀ ctx value, operation = .setStake ctx value → ctx.policy = .slots →
      ctx.slotMax ≤ bound) :
    after.slotCount ≤ max bound account.slotCount := by
  obtain hsame | ⟨part, moved, hpart, hmoved, move⟩ := effect.stake_moves
  · rw [slotCount, hsame]
    exact Nat.le_max_right _ _
  · rw [slotCount_of_loaded hpart, slotCount_of_loaded hmoved]
    exact move.length_le (h.stake_wellFormed part hpart) pos room

/-! ### Ascending runs -/

variable {earlier later rest : List Operation}

theorem mem_revisions_cons {revision : Revision}
    (h : revision ∈ rest.filterMap Operation.revision?) :
    revision ∈ (operation :: rest).filterMap Operation.revision? := by
  rw [List.mem_filterMap] at h ⊢
  obtain ⟨later, hlater, hrevision⟩ := h
  exact ⟨later, List.mem_cons_of_mem _ hlater, hrevision⟩

/-- The first of ascending operations goes by a policy that covers the stake part. -/
theorem Ascending.covered (h : account.Ascending (operation :: rest)) :
    account.Covered operation := by
  intro revision part hrevision hstake hsingle
  -- slots would have asked this very operation for a revision that knows several unstakes
  refine Decidable.byContradiction fun hslots => ?_
  have hmultiple := h.slots_known part hstake hslots revision
    (by rw [List.filterMap_cons_some hrevision]; exact List.mem_cons_self)
  rw [UnstakePolicy.ofRevision_eq_slots_iff.2 hmultiple] at hsingle
  cases hsingle

theorem Ascending.tail (h : account.Ascending (operation :: rest)) : account.Ascending rest where
  pairwise := by
    have hpairwise := h.pairwise
    cases hrevision : operation.revision? with
    | none => rwa [List.filterMap_cons_none hrevision] at hpairwise
    | some revision =>
        rw [List.filterMap_cons_some hrevision] at hpairwise
        exact hpairwise.tail
  slots_known part hstake hslots revision hmem :=
    h.slots_known part hstake hslots revision (mem_revisions_cons hmem)

/-- A revision that knows several unstakes is followed by such revisions only. -/
theorem Ascending.known_of_first (h : account.Ascending (operation :: rest)) {revision : Revision}
    (hrevision : operation.revision? = some revision)
    (known : revision.hasMultipleUnstake = true) :
    ∀ later ∈ rest.filterMap Operation.revision?, later.hasMultipleUnstake = true := by
  intro later hlater
  have hpairwise := h.pairwise
  rw [List.filterMap_cons_some hrevision, List.pairwise_cons] at hpairwise
  exact Revision.hasMultipleUnstake_of_le known (hpairwise.1 later hlater)

/-- The rest of ascending operations is ascending from where the first one leads. -/
theorem Ascending.step (h : account.Ascending (operation :: rest)) :
    (account.step operation).Ascending rest := by
  obtain hsame | effect := step_eq_or_effect account operation
  · exact hsame.symm ▸ h.tail
  · refine ⟨h.tail.pairwise, fun part hpart hslots => ?_⟩
    obtain hsame | ⟨before, moved, hbefore, hmoved, move⟩ := effect.stake_moves
    · exact h.tail.slots_known part (hsame ▸ hpart) hslots
    · cases hpart.symm.trans hmoved
      obtain hnonempty | ⟨revision, hrevision, known⟩ := move.slots_known hslots
      · exact h.tail.slots_known before hbefore hnonempty
      · exact h.known_of_first hrevision known

theorem WellFormed.step (h : account.WellFormed) (covered : account.Covered operation) :
    (account.step operation).WellFormed := by
  obtain hsame | effect := step_eq_or_effect account operation
  · exact hsame.symm ▸ h
  · exact h.effect covered effect

/-- At every point of a run of ascending operations the account is well-formed, and what remains of
the run is ascending. -/
theorem WellFormed.run (h : account.WellFormed) (ascending : account.Ascending (earlier ++ later)) :
    (account.run earlier).WellFormed ∧ (account.run earlier).Ascending later := by
  induction earlier generalizing account with
  | nil => exact ⟨h, ascending⟩
  | cons operation rest ih => exact ih (h.step ascending.covered) ascending.step

/-- A bound on the slots that changes of stake may use bounds the slots at every point of a run. -/
theorem WellFormed.slotCount_run_le (h : account.WellFormed)
    (ascending : account.Ascending (earlier ++ later)) {bound : Nat} (pos : 1 ≤ bound)
    (start : account.slotCount ≤ bound)
    (room : ∀ ctx value, .setStake ctx value ∈ earlier → ctx.policy = .slots →
      ctx.slotMax ≤ bound) :
    (account.run earlier).slotCount ≤ bound := by
  induction earlier generalizing account with
  | nil => exact start
  | cons operation rest ih =>
      refine ih (h.step ascending.covered) ascending.step ?_
        fun ctx value hmem => room ctx value (List.mem_cons_of_mem _ hmem)
      obtain hsame | effect := step_eq_or_effect account operation
      · exact hsame.symm ▸ start
      · have hle := h.slotCount_le effect pos
          fun ctx value hfirst => room ctx value (hfirst ▸ List.mem_cons_self)
        omega

/-- **At every point of a run of ascending operations the account is well-formed; a change of stake
leads to no more slots than its maximum or than there were, and so a bound on the maxima and on the
slots at the start bounds them throughout.** -/
theorem wellFormed_of_ascending {operations : List Operation} (made : account.Made)
    (ascending : account.Ascending operations) :
    (∀ earlier later, operations = earlier ++ later → (account.run earlier).WellFormed) ∧
      (∀ earlier ctx value later after, operations = earlier ++ .setStake ctx value :: later →
        ctx.policy = .slots →
        (account.run earlier).perform (.setStake ctx value) = (.ok (), after) →
        after.slotCount ≤ max ctx.slotMax (account.run earlier).slotCount) ∧
      ∀ bound, 1 ≤ bound → account.slotCount ≤ bound →
        (∀ ctx value, .setStake ctx value ∈ operations → ctx.policy = .slots →
          ctx.slotMax ≤ bound) →
        ∀ earlier later, operations = earlier ++ later →
          (account.run earlier).slotCount ≤ bound := by
  have h := made.wellFormed
  refine ⟨?_, ?_, ?_⟩
  · rintro earlier later rfl
    exact (h.run ascending).1
  · rintro earlier ctx value later after rfl hslots haccepted
    have effect := effect_of_perform_ok haccepted
    refine (h.run ascending).1.slotCount_le effect (effect.slotMax_pos hslots) ?_
    rintro _ _ ⟨⟩ _
    exact Nat.le_refl _
  · rintro bound pos start room earlier later rfl
    exact h.slotCount_run_le ascending pos start
      fun ctx value hmem => room ctx value (List.mem_append_left _ hmem)

/-- Decreases that first use the single amount, then adopt it, and then join the last slot. -/
def ascendingRun : List Operation :=
  [.setStake ⟨5, ⟨5⟩, 20, 2⟩ 20, .setStake ⟨6, ⟨9⟩, 20, 2⟩ 10, .setStake ⟨7, ⟨9⟩, 20, 2⟩ 0]

theorem small_ascending : small.Ascending ascendingRun where
  pairwise := by decide
  slots_known := by
    rintro _ ⟨⟩ hslots
    exact absurd rfl hslots

theorem wellFormed_ascendingRun :
    (small.run ascendingRun).WellFormed ∧
      ((small.run (ascendingRun.take 2)).step (.setStake ⟨7, ⟨9⟩, 20, 2⟩ 0)).slotCount ≤
        max 2 (small.run (ascendingRun.take 2)).slotCount ∧
      (small.run ascendingRun).slotCount ≤ 2 := by
  obtain ⟨hformed, hstep, hbound⟩ := wellFormed_of_ascending small_made small_ascending
  refine ⟨hformed ascendingRun [] rfl, ?_, ?_⟩
  · exact hstep (ascendingRun.take 2) _ _ [] _ rfl (by decide) rfl
  · refine hbound 2 (by decide) (by decide) ?_ ascendingRun [] rfl
    intro ctx value hmem _
    simp only [ascendingRun, List.mem_cons, List.not_mem_nil, or_false,
      Operation.setStake.injEq] at hmem
    obtain ⟨rfl, -⟩ | ⟨rfl, -⟩ | ⟨rfl, -⟩ := hmem <;> exact Nat.le_refl 2

end Account

end StakeLedger
