/-
**The single shape is the reduced case of slots.**

Take two accounts that hold the same, with nothing pending, and let the same moves come to both: to
the one at revisions that know a single pending unstake, to the other at revisions that keep slots,
but no more than one.  As long as unstakes unlock ever later the two cannot be told apart.  Every
check gives the same verdict for both, because they have the same balance and the same amounts
staked and pending; and whatever is accepted leaves them holding the same.

Main definitions:

* `StakeLedger.Account.Related` — accounts that hold the same but for their stake parts;
* `StakeLedger.Move`, `StakeLedger.Twin` — a move of both accounts, each at a revision of its own;
* `StakeLedger.Account.Rising` — runs whose unstakes unlock ever later;
* `StakeLedger.Account.trace` — what comes of the operations of a run, one after the other.

Main results:

* `StakeLedger.Account.Related.setStake`, `StakeLedger.Account.Related.normalize` — the two
  operations that move a stake have the same outcome for both;
* `StakeLedger.Account.Related.step`, `StakeLedger.Account.Related.trace` — what one move keeps, and
  what a run keeps;
* `StakeLedger.Account.traces_match` — **the two accounts cannot be told apart at any step**.
-/
import Mathlib.Data.List.Forall2
import StakeLedger.Proofs.OneSlot

set_option autoImplicit false

namespace StakeLedger

/-! ### Accounts -/

namespace Account

variable {R S : StakePart → StakePart → Prop} {early late : Account}

/-- Two accounts that hold the same, seen at the same height, but for their stake parts, which are
related if they are loaded. -/
structure Related (R : StakePart → StakePart → Prop) (early late : Account) : Prop where
  coin_eq : late.coin = early.coin
  height_eq : late.height = early.height
  stakes : Option.Rel R early.stake late.stake

theorem Related.unloaded_or (h : Related R early late) :
    early.stake = none ∧ late.stake = none ∨
      ∃ part other, early.stake = some part ∧ late.stake = some other ∧ R part other := by
  have hstakes := h.stakes
  revert hstakes
  cases early.stake with
  | none =>
      cases late.stake with
      | none => exact fun _ => Or.inl ⟨rfl, rfl⟩
      | some other => exact nofun
  | some part =>
      cases late.stake with
      | none => exact nofun
      | some other =>
          intro hstakes
          exact Or.inr ⟨part, other, rfl, rfl, Option.rel_some_some.1 hstakes⟩

theorem Related.mono (h : Related R early late) (le : ∀ ⦃part other⦄, R part other → S part other) :
    Related S early late where
  coin_eq := h.coin_eq
  height_eq := h.height_eq
  stakes := by
    obtain ⟨hearly, hlate⟩ | ⟨part, other, hearly, hlate, related⟩ := h.unloaded_or
    · rw [hearly, hlate]
      exact .none
    · rw [hearly, hlate]
      exact .some (le related)

@[simp] theorem height_synced (account : Account) : account.synced.height = account.height := by
  unfold synced
  split <;> rfl

/-- The flag is set from what is pending in the stake part, if there is one. -/
theorem coin_synced (account : Account) :
    account.synced.coin =
      match account.stake with
      | some part => account.coin.map fun coin =>
          coin.setFlag CoinPart.hasUnstakeFlag (decide (0 < part.pending))
      | none => account.coin := by
  obtain ⟨address, height, revision, coin, stake, delegation⟩ := account
  cases coin with
  | none => cases stake <;> rfl
  | some coin => cases stake <;> rfl

/-- Accounts with the same amount pending set the same flag. -/
theorem Related.synced (h : Related R early late)
    (pending_eq : ∀ ⦃part other⦄, R part other → other.pending = part.pending) :
    Related R early.synced late.synced where
  coin_eq := by
    rw [coin_synced, coin_synced, h.coin_eq]
    obtain ⟨hearly, hlate⟩ | ⟨part, other, hearly, hlate, related⟩ := h.unloaded_or
    · rw [hearly, hlate]
    · simp only [hearly, hlate, pending_eq related]
  height_eq := by
    rw [height_synced, height_synced]
    exact h.height_eq
  stakes := by
    rw [synced_stake, synced_stake]
    exact h.stakes

/-! ### What one move keeps -/

/-- Outcomes that are the same and leave related accounts behind. -/
def Alike (R : StakePart → StakePart → Prop)
    (early late : Except LedgerError Unit × Account) : Prop :=
  early.1 = late.1 ∧ Related R early.2 late.2

/-- Both accounts refuse for the same reason and stay what they are. -/
theorem Related.refused (h : Related R early late) {error : LedgerError}
    {first second : Except LedgerError Unit × Account} (hearly : first = (.error error, early))
    (hlate : second = (.error error, late)) : Alike R first second := by
  subst hearly hlate
  exact ⟨rfl, h⟩

/-- A change of the coin part alone has the same outcome for both. -/
theorem Related.updateCoin (h : Related R early late)
    (f : CoinPart → Except LedgerError CoinPart) :
    Alike R (AccountM.update coinPart f putCoin early)
      (AccountM.update coinPart f putCoin late) := by
  have hlate : late.coinPart = early.coinPart := by rw [coinPart, coinPart, h.coin_eq]
  cases hearly : early.coinPart with
  | error error =>
      exact h.refused (AccountM.update_of_unseen hearly)
        (AccountM.update_of_unseen (hlate.trans hearly))
  | ok coin =>
      cases hf : f coin with
      | error error =>
          exact h.refused (AccountM.update_of_error hearly hf)
            (AccountM.update_of_error (hlate.trans hearly) hf)
      | ok changed =>
          rw [AccountM.update_of_ok hearly hf, AccountM.update_of_ok (hlate.trans hearly) hf]
          exact ⟨rfl, rfl, h.height_eq, h.stakes⟩

/-- Related stake parts in the place of others, and the flag set after it. -/
theorem Related.replaced (h : Related R early late) {part other : StakePart}
    (related : part.Mirrors other) {coin coin' : Option CoinPart} (hcoin : coin' = coin) :
    Related StakePart.Mirrors (Account.synced { early with coin, stake := some part })
      (Account.synced { late with coin := coin', stake := some other }) :=
  Related.synced ⟨hcoin, h.height_eq, .some related⟩ fun _ _ => StakePart.Mirrors.pending_eq

theorem Related.normalize {before after : Revision} (h : Related StakePart.Mirrors early late)
    (hbefore : UnstakePolicy.ofRevision before = .single)
    (hafter : UnstakePolicy.ofRevision after = .slots) :
    Alike StakePart.Mirrors (Account.normalize before early) (Account.normalize after late) := by
  obtain ⟨hearly, hlate⟩ | ⟨part, other, hearly, hlate, related⟩ := h.unloaded_or
  · rw [normalize_of_unstaked hearly, normalize_of_unstaked hlate]
    exact ⟨rfl, h⟩
  · have hmatured : (UnstakePolicy.ofRevision after).matured other late.height =
        (UnstakePolicy.ofRevision before).matured part early.height := by
      rw [hbefore, hafter, h.height_eq, related.matured_eq]
    have hreleased : ∀ coin, Related StakePart.Mirrors
        (early.released (.ofRevision before) coin part)
        (late.released (.ofRevision after) coin other) := by
      intro coin
      rw [hbefore, hafter]
      refine h.replaced ?_ rfl
      rw [h.height_eq]
      exact related.release early.height
    by_cases hpos : 0 < (UnstakePolicy.ofRevision before).matured part early.height
    · rw [normalize_of_matured hearly hpos, normalize_of_matured hlate (hmatured ▸ hpos), hmatured,
        h.coin_eq]
      cases early.coin with
      | none => exact ⟨rfl, h⟩
      | some coin =>
          change Alike _ (if Amount.InRange _ then _ else _) (if Amount.InRange _ then _ else _)
          split
          · exact ⟨rfl, hreleased (some _)⟩
          · exact ⟨rfl, h⟩
    · rw [normalize_of_settled hearly hpos, normalize_of_settled hlate (hmatured ▸ hpos), h.coin_eq]
      exact ⟨rfl, hreleased _⟩

variable {ctx ctx' : StakingContext} {value : Int}

/-- Contexts that differ in their revision, the one with the single policy and the other with one
slot. -/
structure Reduced (ctx ctx' : StakingContext) : Prop where
  single : ctx.policy = .single
  slots : ctx'.policy = .slots
  one_slot : ctx'.slotMax = 1
  unlockHeight_eq : ctx'.unlockHeight = ctx.unlockHeight

/-- What a change of stake does once it is admitted. -/
theorem Related.moveStake (h : Related StakePart.Mirrors early late) (reduced : Reduced ctx ctx')
    {coin : CoinPart} {part other : StakePart} (hcoin : early.coin = some coin)
    (hearly : early.stake = some part) (hlate : late.stake = some other)
    (related : part.Mirrors other)
    (rises : value < part.stake → ctx.unlockHeight ≤ maxHeight → ctx.unlockHeight ≠ 0 ∧
      (part.unstake ≠ 0 → part.unstakeHeight ≤ ctx.unlockHeight)) :
    Alike StakePart.Mirrors
      ((do
        Account.moveStake ctx part.stake value
        AccountM.change Account.synced : AccountM Unit) early)
      ((do
        Account.moveStake ctx' other.stake value
        AccountM.change Account.synced : AccountM Unit) late) := by
  have hcoin' : late.coin = some coin := h.coin_eq.trans hcoin
  have hstake := related.stake_eq
  rcases Int.lt_trichotomy part.stake value with higher | same | lower
  · have hpos : 0 < value - part.stake := by omega
    have hpayable : ctx'.policy.payable other (value - other.stake) =
        ctx.policy.payable part (value - part.stake) := by
      rw [reduced.single, reduced.slots, hstake, UnstakePolicy.payable, related.reclaimable_eq]
      rfl
    rw [moveStake_of_higher hcoin hearly higher, moveStake_of_higher hcoin' hlate (hstake ▸ higher),
      hpayable]
    split
    · exact ⟨rfl, h⟩
    · refine ⟨rfl, ?_⟩
      rw [Account.raised, Account.raised, hpayable, reduced.single, reduced.slots, hstake]
      dsimp only
      exact h.replaced (related.raise hpos) rfl
  · rw [hstake, ← same, moveStake_of_same, moveStake_of_same]
    exact ⟨rfl, h.synced fun _ _ => StakePart.Mirrors.pending_eq⟩
  · rw [moveStake_of_lower hearly lower, moveStake_of_lower hlate (hstake ▸ lower),
      reduced.unlockHeight_eq]
    split
    · exact ⟨rfl, h⟩
    · next hle =>
        obtain ⟨hheight, hlater⟩ := rises lower (Nat.not_lt.1 hle)
        have hpos : 0 < part.stake - value := by omega
        refine ⟨rfl, ?_⟩
        rw [Account.lowered, Account.lowered, reduced.single, reduced.slots, reduced.one_slot,
          reduced.unlockHeight_eq, hstake]
        exact h.replaced (related.lower ctx.slotMax hpos hheight hlater) h.coin_eq

/-- An operation that lowers the stake has what becomes pending unlock at a height that is not zero,
and no earlier than what is pending then. -/
def Rises (account : Account) : Operation → Prop
  | .setStake ctx value =>
      ∀ part ∈ account.stake, ∀ lowered ∈ (account.step (.setStake ctx value)).stake,
        lowered.stake < part.stake →
          ctx.unlockHeight ≠ 0 ∧ (part.unstake ≠ 0 → part.unstakeHeight ≤ ctx.unlockHeight)
  | _ => True

instance (account : Account) : DecidablePred account.Rises
  | .setStake ctx value => inferInstanceAs (Decidable (∀ part ∈ account.stake,
      ∀ lowered ∈ (account.step (.setStake ctx value)).stake, lowered.stake < part.stake →
        ctx.unlockHeight ≠ 0 ∧ (part.unstake ≠ 0 → part.unstakeHeight ≤ ctx.unlockHeight)))
  | .deposit _ | .withdraw _ | .setHeight _ | .normalize _ | .moveDelegated _
  | .setDelegations _ => inferInstanceAs (Decidable True)

/-- A decrease that is accepted does lower the stake, so its unlock height is bound. -/
theorem Rises.of_lowered (rises : early.Rises (.setStake ctx value)) {part : StakePart}
    (loaded : early.stake = some part) (lower : value < part.stake)
    (accepted : Account.setStake ctx value early = (.ok (), early.lowered ctx part value)) :
    ctx.unlockHeight ≠ 0 ∧ (part.unstake ≠ 0 → part.unstakeHeight ≤ ctx.unlockHeight) := by
  have hstep : early.step (.setStake ctx value) = early.lowered ctx part value :=
    congrArg Prod.snd accepted
  refine rises part loaded _ (by rw [hstep]; exact synced_stake _) ?_
  change part.stake - (part.stake - value) < part.stake
  omega

/-- A change of stake is judged the same for both: the same checks fail, and the funds are the
same. -/
theorem Related.setStake (h : Related StakePart.Mirrors early late) (reduced : Reduced ctx ctx')
    (rises : early.Rises (.setStake ctx value)) :
    Alike StakePart.Mirrors (Account.setStake ctx value early)
      (Account.setStake ctx' value late) := by
  have hearly := setStake_apply ctx value early
  have hlate := setStake_apply ctx' value late
  have hroom : ¬ (ctx.policy = .slots ∧ ctx.slotMax = 0) := by
    rw [reduced.single]
    exact fun hslots => absurd hslots.1 nofun
  have hroom' : ¬ (ctx'.policy = .slots ∧ ctx'.slotMax = 0) := by
    rw [reduced.one_slot]
    exact fun hslots => absurd hslots.2 nofun
  rw [if_neg hroom] at hearly
  rw [if_neg hroom', h.coin_eq] at hlate
  by_cases hneg : value < 0
  · rw [if_pos hneg] at hearly hlate
    exact h.refused hearly hlate
  rw [if_neg hneg] at hearly hlate
  cases hcoin : early.coin with
  | none =>
      rw [hcoin] at hearly hlate
      exact h.refused hearly hlate
  | some coin =>
      rw [hcoin] at hearly hlate
      obtain ⟨hstake, hstake'⟩ | ⟨part, other, hstake, hstake', related⟩ := h.unloaded_or
      · rw [hstake] at hearly
        rw [hstake'] at hlate
        exact h.refused hearly hlate
      · have hpending : ctx'.policy.pending other = ctx.policy.pending part := by
          rw [reduced.single, reduced.slots]
          exact related.pending_eq.trans related.pending_single
        rw [hstake] at hearly
        rw [hstake'] at hlate
        simp only [related.stake_eq, hpending] at hlate
        simp only at hearly
        cases hfunds : funds coin.balance part.stake (ctx.policy.pending part) with
        | error error =>
            rw [hfunds] at hearly hlate
            exact h.refused hearly hlate
        | ok available =>
            rw [hfunds] at hearly hlate
            simp only at hearly hlate
            by_cases hshort : available < value
            · rw [if_pos hshort] at hearly hlate
              exact h.refused hearly hlate
            · rw [if_neg hshort] at hearly hlate
              have hmoved := @Related.moveStake _ _ _ _ value h reduced coin part other hcoin
                hstake hstake' related
              rw [related.stake_eq] at hmoved
              rw [hlate]
              rw [← hearly] at hmoved
              refine hmoved fun lower hle => ?_
              rw [moveStake_of_lower hstake lower, if_neg (Nat.not_lt.2 hle)] at hearly
              exact rises.of_lowered hstake lower hearly

end Account

/-! ### Moves of both accounts -/

/-- An operation apart from the revision and the number of slots that it goes by. -/
inductive Move
  | deposit (amount : Int)
  | withdraw (amount : Int)
  | setStake (height lockPeriod : Nat) (value : Int)
  | setHeight (height : Nat)
  | normalize
  deriving DecidableEq, Repr

/-- The operation that a move is at a revision. -/
def Move.operation (revision : Revision) (slotMax : Nat) : Move → Account.Operation
  | .deposit amount => .deposit amount
  | .withdraw amount => .withdraw amount
  | .setStake height lockPeriod value => .setStake { height, revision, lockPeriod, slotMax } value
  | .setHeight height => .setHeight height
  | .normalize => .normalize revision

/-- A move that two accounts make, the one at a revision that knows a single pending unstake and the
other at one that knows several. -/
structure Twin where
  move : Move
  before : Revision
  after : Revision
  /-- The number of slots that the first account goes by, which its policy does not look at. -/
  slotMax : Nat
  before_single : before.hasMultipleUnstake = false
  after_multiple : after.hasMultipleUnstake = true

namespace Twin

/-- The operation on the account with the single shape. -/
def early (twin : Twin) : Account.Operation := twin.move.operation twin.before twin.slotMax

/-- The operation on the account with one slot. -/
def late (twin : Twin) : Account.Operation := twin.move.operation twin.after 1

theorem policy_before (twin : Twin) : UnstakePolicy.ofRevision twin.before = .single := by
  rw [UnstakePolicy.ofRevision, twin.before_single]
  rfl

theorem policy_after (twin : Twin) : UnstakePolicy.ofRevision twin.after = .slots :=
  UnstakePolicy.ofRevision_eq_slots_iff.2 twin.after_multiple

end Twin

namespace Account

variable {early late : Account}

/-- **Both accounts accept a move or refuse it for the same reason, and stay related.** -/
theorem Related.step (h : Related StakePart.Mirrors early late) (twin : Twin)
    (rises : early.Rises twin.early) :
    Alike StakePart.Mirrors (early.perform twin.early) (late.perform twin.late) := by
  have hbefore := twin.policy_before
  have hafter := twin.policy_after
  rw [Twin.early] at rises ⊢
  rw [Twin.late]
  cases hmove : twin.move with
  | deposit amount => exact h.updateCoin fun coin => coin.deposit amount
  | withdraw amount => exact h.updateCoin fun coin => coin.withdraw amount
  | setStake height lockPeriod value =>
      rw [hmove] at rises
      exact @Related.setStake _ _ ⟨height, twin.before, lockPeriod, twin.slotMax⟩
        ⟨height, twin.after, lockPeriod, 1⟩ value h ⟨hbefore, hafter, rfl, rfl⟩ rises
  | setHeight height => exact ⟨rfl, h.coin_eq, rfl, h.stakes⟩
  | normalize => exact h.normalize hbefore hafter

/-- What comes of the operations of a run: the outcome and the account after each of them. -/
def trace (account : Account) : List Operation → List (Except LedgerError Unit × Account)
  | [] => []
  | operation :: rest => account.perform operation :: (account.step operation).trace rest

/-- A run in which every operation that lowers the stake has what becomes pending unlock at a height
that is not zero, and no earlier than what is pending then. -/
def Rising : Account → List Twin → Prop
  | _, [] => True
  | account, twin :: rest => account.Rises twin.early ∧ (account.step twin.early).Rising rest

instance decidableRising : (account : Account) → (twins : List Twin) →
    Decidable (account.Rising twins)
  | _, [] => inferInstanceAs (Decidable True)
  | account, twin :: rest =>
      have := decidableRising (account.step twin.early) rest
      inferInstanceAs (Decidable (account.Rises twin.early ∧
        (account.step twin.early).Rising rest))

/-- Both accounts stay related along a run. -/
theorem Related.trace (h : Related StakePart.Mirrors early late) {twins : List Twin}
    (rising : early.Rising twins) :
    List.Forall₂ (Alike StakePart.Mirrors) (early.trace (twins.map Twin.early))
      (late.trace (twins.map Twin.late)) := by
  induction twins generalizing early late with
  | nil => exact .nil
  | cons twin rest ih =>
      have hstep := h.step twin rising.1
      exact .cons hstep (ih hstep.2 rising.2)

/-! ### What is seen of the accounts -/

/-- **Two accounts that hold the same with nothing pending cannot be told apart by moves that both
make, one keeping a single amount pending and the other one slot, as long as unstakes unlock ever
later**: at every step the outcomes are the same, and so are balance and flags, stake, what is
pending and all that was ever unstaked. -/
theorem traces_match (start : Related StakePart.AtRest early late) {twins : List Twin}
    (rising : early.Rising twins) :
    List.Forall₂ (Alike StakePart.ShowsSame) (early.trace (twins.map Twin.early))
      (late.trace (twins.map Twin.late)) := by
  have hmirrors := (start.mono fun _ _ => StakePart.AtRest.mirrors).trace rising
  refine hmirrors.imp fun before after halike => ?_
  exact ⟨halike.1, halike.2.mono fun _ _ => StakePart.Mirrors.showsSame⟩

/-- An account with a stake and nothing pending, at a revision before slots. -/
def restingEarly : Account :=
  { small with
    revision := .staking
    stake := some { StakePart.empty with stake := 50 } }

/-- The same account at a revision with slots. -/
def restingLate : Account := { restingEarly with revision := .multipleUnstake }

/-- A move of both accounts at the revisions on either side of the change. -/
def twinOf (move : Move) : Twin where
  move := move
  before := .staking
  after := .multipleUnstake
  slotMax := 0
  before_single := by decide
  after_multiple := by decide

/-- Two unstakes that join, an increase paid out of them, a withdrawal that is refused, and a
release of what is left. -/
def twinMoves : List Twin :=
  [twinOf (.setStake 0 10 30), twinOf (.setStake 5 10 20), twinOf (.setStake 6 10 40),
    twinOf (.withdraw 1000), twinOf (.setHeight 15), twinOf .normalize, twinOf (.deposit 5)]

theorem resting_related : Related StakePart.AtRest restingEarly restingLate where
  coin_eq := rfl
  height_eq := rfl
  stakes := .some ⟨rfl, rfl, by decide, by decide⟩

theorem traces_match_twinMoves :
    List.Forall₂ (Alike StakePart.ShowsSame) (restingEarly.trace (twinMoves.map Twin.early))
      (restingLate.trace (twinMoves.map Twin.late)) :=
  traces_match resting_related (by decide)

end Account

end StakeLedger
