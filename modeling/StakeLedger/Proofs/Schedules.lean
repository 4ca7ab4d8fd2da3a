/-
**What a change of stake does to the schedule.**

Under the slot policy a change of stake moves the single amount into the slots first and then works
on the schedule that this gives.  What a decrease unstakes takes its place behind all that unlock no
later, or joins the last slot once the slots are used up.  An increase takes what it needs from the
front of the schedule, and only what the schedule does not hold from the balance.

Hence the amount that is locked after a height never falls by a decrease, and it falls by an increase
only once everything that unlocks up to that height is used up.

Main definitions:

* `StakeLedger.Slot.locked` — what slots hold that unlocks after a height;
* `StakeLedger.Slot.Placed`, `StakeLedger.Slot.Joined`, `StakeLedger.Slot.Taken` — a slot in its
  place, an amount in the last slot, and what is left once an amount is taken from the front;
* `StakeLedger.StakePart.Unstaked`, `StakeLedger.StakePart.Restaked` — **what becomes of a stake part
  whose stake falls or rises**.

Main results:

* `StakeLedger.Slot.Valid.locked_drain` — what is locked after an amount is taken from the front;
* `StakeLedger.Account.unstaked_of_lower`, `StakeLedger.Account.restaked_of_raise` — what the
  changes of stake do that are accepted.
-/
import StakeLedger.Proofs.Release

set_option autoImplicit false

namespace StakeLedger

/-! ### What is locked -/

namespace Slot

/-- What slots hold that unlocks after `height`. -/
def locked (height : Nat) (slots : List Slot) : Int :=
  total (slots.filter fun slot => decide (height < slot.unlockHeight))

variable {height : Nat} {slots : List Slot} {amount : Int}

/-- What is not due by a height is locked after it. -/
theorem due_add_locked (height : Nat) (slots : List Slot) :
    due height slots + locked height slots = total slots := by
  have hlater : (fun slot : Slot => decide (height < slot.unlockHeight)) =
      fun slot => !slot.matured height := by
    funext slot
    rw [matured, ← decide_not, decide_eq_decide, Nat.not_le]
  rw [locked, hlater]
  exact total_filter_add_total_filter_not (matured height) slots

theorem locked_cons (height : Nat) (first : Slot) (rest : List Slot) :
    locked height (first :: rest) =
      (if height < first.unlockHeight then first.amount else 0) + locked height rest := by
  unfold locked
  by_cases h : height < first.unlockHeight
  · rw [List.filter_cons_of_pos (by simpa using h), total_cons, if_pos h]
  · rw [List.filter_cons_of_neg (by simpa using h), if_neg h, Int.zero_add]

theorem Valid.locked_le_total (h : Valid slots) (height : Nat) :
    locked height slots ≤ total slots := by
  have hdue := h.due_nonneg height
  have hsplit := due_add_locked height slots
  omega

/-- Behind a slot that is locked everything is. -/
theorem locked_of_later {first : Slot} (later : height < first.unlockHeight)
    (ordered : ∀ slot ∈ slots, first.unlockHeight ≤ slot.unlockHeight) :
    locked height slots = total slots := by
  rw [locked, List.filter_eq_self.2]
  intro slot hslot
  exact decide_eq_true (Nat.lt_of_lt_of_le later (ordered slot hslot))

/-! ### A slot in its place, or an amount in the last slot -/

/-- `placed` is `slots` with `slot` behind all that unlock no later and in front of all that unlock
later. -/
def Placed (slot : Slot) (slots placed : List Slot) : Prop :=
  ∃ front back, slots = front ++ back ∧ placed = front ++ slot :: back ∧
    (∀ other ∈ front, other.unlockHeight ≤ slot.unlockHeight) ∧
    ∀ other ∈ back, slot.unlockHeight < other.unlockHeight

/-- `joined` is `slots` with `amount` added to the last of them, which unlocks no earlier than
`unlockHeight`. -/
def Joined (amount : Int) (unlockHeight : Nat) (slots joined : List Slot) : Prop :=
  ∃ front last, slots = front ++ [last] ∧
    joined = front ++
      [{ amount := last.amount + amount, unlockHeight := max last.unlockHeight unlockHeight }]

theorem placed_insert (slot : Slot) (h : Ordered slots) :
    Placed slot slots (insert slot slots) := by
  induction slots with
  | nil => exact ⟨[], [], rfl, rfl, by simp, by simp⟩
  | cons first rest ih =>
      obtain ⟨hfirst, hrest⟩ := List.pairwise_cons.1 h
      rw [insert]
      split
      · next hle =>
          obtain ⟨front, back, hsplit, hplaced, hfront, hback⟩ := ih hrest
          refine ⟨first :: front, back, ?_, ?_, List.forall_mem_cons.2 ⟨hle, hfront⟩, hback⟩
          · rw [hsplit, List.cons_append]
          · rw [hplaced, List.cons_append]
      · next hlater =>
          refine ⟨[], first :: rest, rfl, rfl, by simp, ?_⟩
          refine List.forall_mem_cons.2 ⟨Nat.lt_of_not_le hlater, fun other hother => ?_⟩
          exact Nat.lt_of_lt_of_le (Nat.lt_of_not_le hlater) (hfirst other hother)

theorem joined_raiseLast (h : slots ≠ []) (amount : Int) (unlockHeight : Nat) :
    Joined amount unlockHeight slots (raiseLast amount unlockHeight slots) := by
  fun_induction raiseLast amount unlockHeight slots with
  | case1 => exact absurd rfl h
  | case2 last => exact ⟨[], last, rfl, rfl⟩
  | case3 first rest hrest ih =>
      obtain ⟨front, last, hsplit, hjoined⟩ := ih fun hnil => hrest hnil
      refine ⟨first :: front, last, ?_, ?_⟩
      · rw [hsplit, List.cons_append]
      · rw [hjoined, List.cons_append]

/-! ### An amount taken from the front -/

/-- `left` is `slots` without the slots in front that hold `amount` together, of the last of which
some may be left. -/
def Taken (amount : Int) (slots left : List Slot) : Prop :=
  (∃ gone, slots = gone ++ left ∧ total gone = amount) ∨
    ∃ gone first rest, slots = gone ++ first :: rest ∧ total gone < amount ∧
      amount < total gone + first.amount ∧
      left = { first with amount := total gone + first.amount - amount } :: rest

/-- What is taken behind a slot is taken from the whole list together with that slot. -/
theorem Taken.cons {first : Slot} {rest left : List Slot}
    (h : Taken (amount - first.amount) rest left) : Taken amount (first :: rest) left := by
  -- in both cases the first slot joins those that are gone
  obtain ⟨gone, hsplit, htotal⟩ | ⟨gone, next, after, hsplit, hshort, hreaches, hleft⟩ := h
  · refine Or.inl ⟨first :: gone, by rw [hsplit, List.cons_append], ?_⟩
    rw [total_cons]
    omega
  · refine Or.inr ⟨first :: gone, next, after, by rw [hsplit, List.cons_append], ?_, ?_, ?_⟩
    · rw [total_cons]
      omega
    · rw [total_cons]
      omega
    · have hamount : total gone + next.amount - (amount - first.amount) =
          total (first :: gone) + next.amount - amount := by
        rw [total_cons]
        omega
      rw [hleft, hamount]

/-- Draining takes the whole amount from the front, as far as the slots reach. -/
theorem taken_drain (pos : 0 ≤ amount) (enough : amount ≤ total slots) :
    Taken amount slots (drain amount slots) := by
  fun_induction drain amount slots with
  | case1 amount =>
      rw [total_nil] at enough
      exact Or.inl ⟨[], rfl, Int.le_antisymm pos enough⟩
  | case2 amount first rest hnone => exact Or.inl ⟨[], rfl, Int.le_antisymm pos hnone⟩
  | case3 amount first rest _ hused ih =>
      rw [total_cons] at enough
      exact (ih (by omega) (by omega)).cons
  | case4 amount first rest hsome hless =>
      refine Or.inr ⟨[], first, rest, rfl, ?_, ?_, ?_⟩
      · rw [total_nil]
        omega
      · rw [total_nil]
        omega
      · rw [total_nil, Int.zero_add]

/-- **What is locked after a height stays locked, unless more is taken than is due by then**: it is
what it was, or all that is left if that is less. -/
theorem Valid.locked_drain (h : Valid slots) (height : Nat) (pos : 0 ≤ amount)
    (enough : amount ≤ total slots) :
    locked height (Slot.drain amount slots) = min (locked height slots) (total slots - amount) := by
  fun_induction Slot.drain amount slots with
  | case1 amount =>
      rw [total_nil] at enough
      change (0 : Int) = min 0 (0 - amount)
      omega
  | case2 amount first rest hnone =>
      have hle := h.locked_le_total height
      omega
  | case3 amount first rest _ hused ih =>
      obtain ⟨hfirst, hordered, hrest⟩ := valid_cons.1 h
      rw [total_cons] at enough
      rw [ih hrest (by omega) (by omega), locked_cons, total_cons]
      by_cases hlater : height < first.unlockHeight
      · -- the first slot is locked, and so all that is left behind it is
        rw [if_pos hlater, locked_of_later hlater hordered]
        omega
      · rw [if_neg hlater]
        omega
  | case4 amount first rest hsome hless =>
      obtain ⟨hfirst, hordered, hrest⟩ := valid_cons.1 h
      rw [locked_cons, locked_cons, total_cons]
      change (if height < first.unlockHeight then first.amount - amount else 0) + _ = _
      by_cases hlater : height < first.unlockHeight
      · rw [if_pos hlater, if_pos hlater, locked_of_later hlater hordered]
        omega
      · -- what is taken is all due, so what is locked stays below what is left
        have hle := hrest.locked_le_total height
        rw [if_neg hlater, if_neg hlater]
        omega

end Slot

/-! ### Stake parts -/

namespace StakePart

/-- What becomes of a part whose stake falls to `value`, of which the difference unlocks at
`unlockHeight`, where `slotMax` unstakes may be pending. -/
structure Unstaked (part moved : StakePart) (value : Int) (unlockHeight slotMax : Nat) : Prop where
  stake_eq : moved.stake = value
  totalUnstaked_eq : moved.totalUnstaked = part.totalUnstaked + (part.stake - value)
  adopted : moved.unstake = 0
  placed : part.schedule.length < slotMax →
    Slot.Placed ⟨part.stake - value, unlockHeight⟩ part.schedule moved.slots
  joined : slotMax ≤ part.schedule.length →
    Slot.Joined (part.stake - value) unlockHeight part.schedule moved.slots
  locked_ge : ∀ height,
    Slot.locked height part.schedule + (if height < unlockHeight then part.stake - value else 0) ≤
      Slot.locked height moved.slots

/-- What of an increase of the stake to `value` is taken from the schedule. -/
def reclaimed (part : StakePart) (value : Int) : Int :=
  min (value - part.stake) (Slot.total part.schedule)

/-- What becomes of a part whose stake rises to `value`. -/
structure Restaked (part moved : StakePart) (value : Int) : Prop where
  stake_eq : moved.stake = value
  totalUnstaked_eq : moved.totalUnstaked = part.totalUnstaked
  adopted : moved.unstake = 0
  taken : Slot.Taken (part.reclaimed value) part.schedule moved.slots
  slots_valid : Slot.Valid moved.slots
  locked_eq : ∀ height, Slot.locked height moved.slots =
    min (Slot.locked height part.schedule) (Slot.total part.schedule - part.reclaimed value)

variable {part : StakePart} {value : Int}

theorem slots_lower (part : StakePart) (released : Int) (unlockHeight slotMax : Nat) :
    (UnstakePolicy.slots.lower part released unlockHeight slotMax).slots =
      if part.schedule.length < slotMax then Slot.insert ⟨released, unlockHeight⟩ part.schedule
      else Slot.raiseLast released unlockHeight part.schedule := rfl

theorem slots_raise (part : StakePart) (value : Int) :
    (UnstakePolicy.slots.raise part (value - part.stake)).slots =
      Slot.drain (part.reclaimed value) part.schedule := by
  rw [reclaimed, total_schedule]
  rfl

/-- What a decrease leaves locked: what is due grows by no more than unlocks by then, and all that is
pending grows by the whole decrease. -/
theorem Sound.locked_lower_ge (h : part.Sound) {released : Int} (pos : 0 ≤ released)
    {slotMax : Nat} (room : slotMax ≠ 0) (unlockHeight height : Nat) :
    Slot.locked height part.schedule + (if height < unlockHeight then released else 0) ≤
      Slot.locked height (UnstakePolicy.slots.lower part released unlockHeight slotMax).slots := by
  have hschedule :
      (UnstakePolicy.slots.lower part released unlockHeight slotMax).schedule =
        (UnstakePolicy.slots.lower part released unlockHeight slotMax).slots :=
    schedule_of_unstake_eq_zero (adopt_unstake part)
  have hpending := @UnstakePolicy.pending_lower .slots part slotMax (fun _ => room) released
    unlockHeight
  have hdue := h.due_lower_le pos unlockHeight slotMax height
  have hbefore := Slot.due_add_locked height part.schedule
  have hafter := Slot.due_add_locked height
    (UnstakePolicy.slots.lower part released unlockHeight slotMax).schedule
  rw [total_schedule] at hbefore hafter
  rw [due, due] at hdue
  rw [← hschedule]
  by_cases hlater : height < unlockHeight
  · rw [if_pos hlater]
    rw [if_neg (Nat.not_le.2 hlater)] at hdue
    omega
  · rw [if_neg hlater]
    rw [if_pos (Nat.not_lt.1 hlater)] at hdue
    omega

theorem Sound.unstaked (h : part.Sound) (lower : value < part.stake) {slotMax : Nat}
    (room : slotMax ≠ 0) (unlockHeight : Nat) :
    part.Unstaked (UnstakePolicy.slots.lower part (part.stake - value) unlockHeight slotMax) value
      unlockHeight slotMax where
  stake_eq := by
    change part.stake - (part.stake - value) = value
    omega
  totalUnstaked_eq := rfl
  adopted := adopt_unstake part
  placed hroom := by
    rw [slots_lower, if_pos hroom]
    exact Slot.placed_insert _ h.adopt.slots_valid.2
  joined hfull := by
    have hnone : ¬ part.schedule.length < slotMax := Nat.not_lt.2 hfull
    rw [slots_lower, if_neg hnone]
    exact Slot.joined_raiseLast (Slot.ne_nil_of_full room hnone) _ _
  locked_ge height := h.locked_lower_ge (by omega) room unlockHeight height

theorem Sound.restaked (h : part.Sound) (higher : part.stake < value) :
    part.Restaked (UnstakePolicy.slots.raise part (value - part.stake)) value := by
  have hvalid : Slot.Valid part.schedule := h.adopt.slots_valid
  have hnonneg := hvalid.total_nonneg
  have hpos : 0 ≤ part.reclaimed value := by
    unfold reclaimed
    omega
  have henough : part.reclaimed value ≤ Slot.total part.schedule := Int.min_le_right _ _
  exact
    { stake_eq := by
        change part.stake + (value - part.stake) = value
        omega
      totalUnstaked_eq := adopt_totalUnstaked part
      adopted := adopt_unstake part
      taken := by
        rw [slots_raise]
        exact Slot.taken_drain hpos henough
      slots_valid := by
        rw [slots_raise]
        exact hvalid.drain _
      locked_eq := by
        intro height
        rw [slots_raise]
        exact hvalid.locked_drain height hpos henough }

/-- A part with a stake of 50 and both shapes filled: 30 are pending until height 10 in the single
shape, between slots that unlock at heights 8 and 20. -/
def mixed : StakePart :=
  { empty with
    stake := 50
    unstake := 30
    unstakeHeight := 10
    slots := [⟨5, 8⟩, ⟨7, 20⟩] }

end StakePart

/-! ### Accounts -/

namespace Account

variable {account after : Account} {ctx : StakingContext} {value : Int} {coin : CoinPart}
variable {part : StakePart}

/-- A change to a lower stake that is accepted lowers it. -/
theorem Effect.eq_lowered (effect : Effect account (.setStake ctx value) after)
    (loaded : account.stake = some part) (lower : value < part.stake) :
    ∃ coin, Admitted account ctx value coin part ∧ after = account.lowered ctx part value := by
  cases effect with
  | raise admitted higher _ =>
      cases loaded.symm.trans admitted.stake_loaded
      omega
  | lower admitted _ _ =>
      cases loaded.symm.trans admitted.stake_loaded
      exact ⟨_, admitted, rfl⟩
  | keep admitted same =>
      cases loaded.symm.trans admitted.stake_loaded
      omega

/-- A change to a higher stake that is accepted raises it. -/
theorem Effect.eq_raised (effect : Effect account (.setStake ctx value) after)
    (coin_loaded : account.coin = some coin) (loaded : account.stake = some part)
    (higher : part.stake < value) : after = account.raised ctx.policy coin part value := by
  cases effect with
  | raise admitted _ _ =>
      cases loaded.symm.trans admitted.stake_loaded
      cases coin_loaded.symm.trans admitted.coin_loaded
      rfl
  | lower admitted lower _ =>
      cases loaded.symm.trans admitted.stake_loaded
      omega
  | keep admitted same =>
      cases loaded.symm.trans admitted.stake_loaded
      omega

/-- **A decrease under the slot policy that is accepted leaves the balance alone and changes the
schedule in one place: the difference is put in its place among the slots, or joins the last one if
no more may be used.** -/
theorem unstaked_of_lower (sound : account.Sound) (loaded : account.stake = some part)
    (slots : ctx.policy = .slots) (lower : value < part.stake)
    (accepted : account.perform (.setStake ctx value) = (.ok (), after)) :
    ∃ moved, after.stake = some moved ∧
      part.Unstaked moved value (ctx.height + ctx.lockPeriod) ctx.slotMax ∧
      after.coin.map CoinPart.balance = account.coin.map CoinPart.balance := by
  obtain ⟨coin, admitted, rfl⟩ := (effect_of_perform_ok accepted).eq_lowered loaded lower
  refine ⟨_, synced_stake _, ?_, synced_balance _⟩
  rw [slots]
  exact (sound.stake_sound part loaded).unstaked lower (admitted.room slots) ctx.unlockHeight

/-- An account with a balance of 100 and a stake of 50, and with 42 pending in both shapes. -/
def mixed : Account := { small with stake := some .mixed }

theorem mixed_sound : mixed.Sound where
  balance_nonneg := by
    rintro _ ⟨⟩
    decide
  stake_sound := by
    rintro _ ⟨⟩
    exact ⟨by decide, by decide, by decide⟩

/-- The single amount is one of three slots.  A fourth one goes behind it, since it unlocks at the
same height; where only three may be used, the amount joins the last. -/
theorem unstaked_mixed :
    (∃ moved, (mixed.step (.setStake ⟨5, ⟨9⟩, 5, 4⟩ 20)).stake = some moved ∧
      Slot.Placed ⟨30, 10⟩ [⟨5, 8⟩, ⟨30, 10⟩, ⟨7, 20⟩] moved.slots ∧
      moved.slots = [⟨5, 8⟩, ⟨30, 10⟩, ⟨30, 10⟩, ⟨7, 20⟩]) ∧
    ∃ moved, (mixed.step (.setStake ⟨5, ⟨9⟩, 5, 3⟩ 20)).stake = some moved ∧
      Slot.Joined 30 10 [⟨5, 8⟩, ⟨30, 10⟩, ⟨7, 20⟩] moved.slots ∧
      moved.slots = [⟨5, 8⟩, ⟨30, 10⟩, ⟨37, 20⟩] := by
  constructor
  · have accepted : mixed.perform (.setStake ⟨5, ⟨9⟩, 5, 4⟩ 20) =
        (.ok (), mixed.step (.setStake ⟨5, ⟨9⟩, 5, 4⟩ 20)) := rfl
    obtain ⟨moved, hmoved, hunstaked, -⟩ :=
      unstaked_of_lower mixed_sound rfl rfl (by decide) accepted
    cases hmoved
    exact ⟨_, rfl, hunstaked.placed (by decide), rfl⟩
  · have accepted : mixed.perform (.setStake ⟨5, ⟨9⟩, 5, 3⟩ 20) =
        (.ok (), mixed.step (.setStake ⟨5, ⟨9⟩, 5, 3⟩ 20)) := rfl
    obtain ⟨moved, hmoved, hunstaked, -⟩ :=
      unstaked_of_lower mixed_sound rfl rfl (by decide) accepted
    cases hmoved
    exact ⟨_, rfl, hunstaked.joined (by decide), rfl⟩

/-- **An increase under the slot policy that is accepted takes from the front of the schedule as much
as it needs, and from the balance what the schedule does not hold.** -/
theorem restaked_of_raise (sound : account.Sound) (coin_loaded : account.coin = some coin)
    (loaded : account.stake = some part) (slots : ctx.policy = .slots) (higher : part.stake < value)
    (accepted : account.perform (.setStake ctx value) = (.ok (), after)) :
    ∃ moved, after.stake = some moved ∧ part.Restaked moved value ∧
      after.coin.map CoinPart.balance =
        some (coin.balance - (value - part.stake - part.reclaimed value)) := by
  have hafter := (effect_of_perform_ok accepted).eq_raised coin_loaded loaded higher
  rw [hafter, slots]
  refine ⟨_, synced_stake _, (sound.stake_sound part loaded).restaked higher, ?_⟩
  refine (synced_balance _).trans ?_
  rw [StakePart.reclaimed, StakePart.total_schedule]
  rfl

/-- An increase by 30 uses up the first slot and most of the single amount. -/
theorem restaked_mixed :
    ∃ moved, (mixed.step (.setStake ⟨5, ⟨9⟩, 5, 4⟩ 80)).stake = some moved ∧
      Slot.Taken 30 [⟨5, 8⟩, ⟨30, 10⟩, ⟨7, 20⟩] moved.slots ∧
      moved.slots = [⟨5, 10⟩, ⟨7, 20⟩] ∧
      (mixed.step (.setStake ⟨5, ⟨9⟩, 5, 4⟩ 80)).coin.map CoinPart.balance = some 100 := by
  have accepted : mixed.perform (.setStake ⟨5, ⟨9⟩, 5, 4⟩ 80) =
      (.ok (), mixed.step (.setStake ⟨5, ⟨9⟩, 5, 4⟩ 80)) := rfl
  obtain ⟨moved, hmoved, hrestaked, hbalance⟩ :=
    restaked_of_raise mixed_sound rfl rfl rfl (by decide) accepted
  cases hmoved
  exact ⟨_, rfl, hrestaked.taken, rfl, hbalance⟩

end Account

end StakeLedger
