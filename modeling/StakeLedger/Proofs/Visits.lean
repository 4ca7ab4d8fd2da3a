/-
**How often an account is visited does not matter.**

An account is visited every now and then: it is seen at the height of that moment, and all that is
unlocked is released.  Whatever a visit releases is unlocked at every later height as well, so a
later visit finds less to release and pays less, and leaves the same account behind as if it had
been the first.  This holds across the revision from which on slots are kept: what the single policy
does not release the slot policy finds in the single shape, where it was all the time.

Nor does a visit fail that would not have failed without the ones before it.  What they paid is part
of what it would have to pay alone, so the balance has room for both or for neither.

Main definitions:

* `StakeLedger.Visit` — a moment at which an account is seen;
* `StakeLedger.Account.visit`, `StakeLedger.Account.visitAll` — one visit, and several in a row;
* `StakeLedger.Account.HasRoom`, `StakeLedger.Account.visited` — when a visit is accepted, and the
  account that it leaves behind.

Main results:

* `StakeLedger.UnstakePolicy.matured_add_matured` — two releases take out what the later one would
  take out alone;
* `StakeLedger.Account.visit_eq_ok_iff_visits` — one visit before another makes no difference;
* `StakeLedger.Account.visits_before` — **any number of visits makes no difference**.
-/
import StakeLedger.Proofs.Matured
import StakeLedger.Proofs.Refusal
import StakeLedger.Proofs.Saving

set_option autoImplicit false

namespace StakeLedger

/-! ### What two releases take out -/

/-- What an earlier release takes out is what a later one finds less. -/
theorem UnstakePolicy.matured_add_matured {part : StakePart} (sound : part.Sound)
    {first second : UnstakePolicy} (known : first = .slots → second = .slots) {early late : Nat}
    (le : early ≤ late) :
    first.matured part early + second.matured (first.release part early) late =
      second.matured part late := by
  -- both ways lead to the same part, and what is no longer pending was taken out
  have hfirst := pending_release sound first early
  have hsecond := pending_release (sound.release first early) second late
  have hwhole := pending_release sound second late
  rw [release_release_of_le known le] at hsecond
  omega

/-! ### Visits -/

/-- A moment at which an account is seen. -/
structure Visit where
  height : Nat
  revision : Revision
  deriving DecidableEq, Repr

/-- The policy that a visit goes by. -/
def Visit.policy (visit : Visit) : UnstakePolicy := .ofRevision visit.revision

/-- A policy that knows slots is followed by such policies only. -/
theorem Visit.policy_of_le {first second : Visit} (le : first.revision ≤ second.revision)
    (known : first.policy = .slots) : second.policy = .slots :=
  UnstakePolicy.ofRevision_of_le (UnstakePolicy.ofRevision_eq_slots_iff.1 known) le

namespace Account

/-- The account as it is seen at a visit, with all released that is unlocked. -/
def visit (account : Account) (visit : Visit) : Except LedgerError Account :=
  (account.step (.setHeight visit.height)).apply (.normalize visit.revision)

/-- The account after visits in a row, up to the first that fails. -/
def visitAll (account : Account) : List Visit → Except LedgerError Account
  | [] => .ok account
  | visit :: rest => do (← account.visit visit).visitAll rest

/-- The balance has room for an amount, if there is one to pay. -/
def HasRoom (account : Account) (amount : Int) : Prop :=
  0 < amount → ∃ coin, account.coin = some coin ∧ coin.balance + amount ≤ Amount.greatest

/-- The account after a visit that finds `part` as its stake part. -/
def visited (account : Account) (visit : Visit) (part : StakePart) : Account :=
  let left := visit.policy.release part visit.height
  { account with
    height := visit.height
    coin := account.coin.map fun coin =>
      coin.holding (coin.balance + visit.policy.matured part visit.height)
        (decide (0 < left.pending))
    stake := some left }

variable {account after : Account} {part : StakePart} {first second last : Visit}

theorem visit_of_unstaked (h : account.stake = none) (visit : Visit) :
    account.visit visit = .ok { account with height := visit.height } := by
  have hstake : (account.step (.setHeight visit.height)).stake = none := h
  rw [Account.visit, apply_normalize, hstake]
  rfl

/-- **A visit is accepted if the balance has room for what is unlocked**, and what it leaves behind
is known. -/
theorem visit_eq_ok_iff (sound : account.Sound) (loaded : account.stake = some part)
    (visit : Visit) :
    account.visit visit = .ok after ↔
      account.HasRoom (visit.policy.matured part visit.height) ∧
        account.visited visit part = after := by
  have hstake : (account.step (.setHeight visit.height)).stake = some part := loaded
  have hnonneg := UnstakePolicy.matured_nonneg (sound.stake_sound part loaded) visit.policy
    visit.height
  rw [Account.visit, apply_normalize, hstake]
  change (if 0 < visit.policy.matured part visit.height then _ else _) = _ ↔ _
  by_cases hpos : 0 < visit.policy.matured part visit.height
  · rw [if_pos hpos]
    cases hcoin : (account.step (.setHeight visit.height)).coin with
    | none =>
        constructor
        · intro hrefused
          cases hrefused
        · rintro ⟨hroom, -⟩
          obtain ⟨coin, hfound, -⟩ := hroom hpos
          cases hcoin.symm.trans hfound
    | some coin =>
        have hbalance := sound.balance_nonneg coin hcoin
        have hrange := inRange_iff_of_nonneg (Int.add_nonneg hbalance hnonneg)
        have hloaded : account.coin = some coin := hcoin
        change (if Amount.InRange (coin.balance + _) then _ else _) = _ ↔ _
        rw [visited, hloaded]
        split
        · next hfits =>
            have hroom : account.HasRoom (visit.policy.matured part visit.height) :=
              fun _ => ⟨coin, hcoin, hfits.2⟩
            rw [Except.ok.injEq]
            exact (and_iff_right hroom).symm
        · next hover =>
            constructor
            · intro hrefused
              cases hrefused
            · rintro ⟨hroom, -⟩
              obtain ⟨found, hfound, hle⟩ := hroom hpos
              cases hcoin.symm.trans hfound
              exact absurd (hrange.2 (Int.not_lt.2 hle)) hover
  · -- nothing is unlocked, and so nothing is added to the balance
    have hnone : visit.policy.matured part visit.height = 0 := by omega
    have hpaid : ({ account with height := visit.height } : Account).released visit.policy
        account.coin part = account.visited visit part := by
      rw [visited, hnone]
      cases account.coin with
      | none => rfl
      | some coin => simp only [Option.map_some, CoinPart.holding, Int.add_zero, released_eq]
    rw [if_neg hpos, ← hpaid, Except.ok.injEq]
    exact (and_iff_right fun h => absurd h hpos).symm

/-- A later visit leaves the same account behind, whether or not there was one before it. -/
theorem visited_visited (account : Account) (sound : part.Sound)
    (heights : first.height ≤ second.height) (revisions : first.revision ≤ second.revision) :
    (account.visited first part).visited second (first.policy.release part first.height) =
      account.visited second part := by
  have known := @Visit.policy_of_le first second revisions
  have hmatured := UnstakePolicy.matured_add_matured sound known heights
  have hrelease := UnstakePolicy.release_release_of_le known heights part
  simp only [visited, Option.map_map, Function.comp_def, CoinPart.holding_holding,
    CoinPart.balance_holding, Int.add_assoc, hmatured, hrelease]

/-- The balance has room for what two visits pay one after the other if it has room for both
together. -/
theorem hasRoom_add_iff {between : Account} {paid more : Int} {pending : Bool}
    (hcoin : between.coin = account.coin.map fun coin =>
      coin.holding (coin.balance + paid) pending)
    (hpaid : 0 ≤ paid) (hmore : 0 ≤ more) :
    account.HasRoom paid ∧ between.HasRoom more ↔ account.HasRoom (paid + more) := by
  constructor
  · rintro ⟨hfirst, hsecond⟩ hpos
    by_cases hnone : 0 < more
    · obtain ⟨coin, hfound, hroom⟩ := hsecond hnone
      rw [hcoin, Option.map_eq_some_iff] at hfound
      obtain ⟨before, hbefore, rfl⟩ := hfound
      refine ⟨before, hbefore, ?_⟩
      change before.balance + paid + more ≤ _ at hroom
      omega
    · obtain ⟨coin, hfound, hroom⟩ := hfirst (by omega)
      exact ⟨coin, hfound, by omega⟩
  · intro hroom
    refine ⟨fun hpos => ?_, fun hpos => ?_⟩
    · obtain ⟨coin, hfound, hle⟩ := hroom (by omega)
      exact ⟨coin, hfound, by omega⟩
    · obtain ⟨coin, hfound, hle⟩ := hroom (by omega)
      refine ⟨coin.holding (coin.balance + paid) pending, by rw [hcoin, hfound]; rfl, ?_⟩
      change coin.balance + paid + more ≤ _
      omega

theorem Sound.visit (h : account.Sound) {visit : Visit}
    (accepted : account.visit visit = .ok after) : after.Sound :=
  (h.effect (.setHeight visit.height)).effect (effect_of_apply_ok accepted)

/-- **One visit before another makes no difference**: the later one is accepted with it if it is
accepted without it, and leaves the same account behind. -/
theorem visit_eq_ok_iff_visits (sound : account.Sound) (heights : first.height ≤ second.height)
    (revisions : first.revision ≤ second.revision) :
    account.visit second = .ok after ↔
      ∃ between, account.visit first = .ok between ∧ between.visit second = .ok after := by
  cases hstake : account.stake with
  | none =>
      rw [visit_of_unstaked hstake, visit_of_unstaked hstake]
      constructor
      · intro h
        exact ⟨_, rfl, (visit_of_unstaked hstake second).trans h⟩
      · rintro ⟨_, ⟨⟩, h⟩
        exact (visit_of_unstaked hstake second).symm.trans h
  | some part =>
      have hpart := sound.stake_sound part hstake
      have hloaded : (account.visited first part).stake =
          some (first.policy.release part first.height) := rfl
      have hroom := @hasRoom_add_iff account (account.visited first part) _
        (second.policy.matured (first.policy.release part first.height) second.height) _ rfl
        (UnstakePolicy.matured_nonneg hpart first.policy first.height)
        (UnstakePolicy.matured_nonneg (hpart.release first.policy first.height) second.policy
          second.height)
      rw [UnstakePolicy.matured_add_matured hpart (Visit.policy_of_le revisions) heights] at hroom
      rw [visit_eq_ok_iff sound hstake, ← hroom]
      constructor
      · rintro ⟨⟨hfirst, hsecond⟩, hafter⟩
        have haccepted := (visit_eq_ok_iff sound hstake first).2 ⟨hfirst, rfl⟩
        refine ⟨_, haccepted,
          (visit_eq_ok_iff (sound.visit haccepted) hloaded second).2 ⟨hsecond, ?_⟩⟩
        rw [visited_visited account hpart heights revisions, hafter]
      · rintro ⟨between, haccepted, hvisit⟩
        have hbetween := sound.visit haccepted
        obtain ⟨hfirst, rfl⟩ := (visit_eq_ok_iff sound hstake first).1 haccepted
        obtain ⟨hsecond, rfl⟩ := (visit_eq_ok_iff hbetween hloaded second).1 hvisit
        exact ⟨⟨hfirst, hsecond⟩, (visited_visited account hpart heights revisions).symm⟩

/-- Visits that are not after the last one make no difference to it. -/
theorem visit_eq_ok_iff_visitAll (sound : account.Sound) {visits : List Visit}
    (earlier : ∀ visit ∈ visits, visit.height ≤ last.height ∧ visit.revision ≤ last.revision) :
    account.visit last = .ok after ↔
      ∃ between, account.visitAll visits = .ok between ∧ between.visit last = .ok after := by
  induction visits generalizing account with
  | nil =>
      constructor
      · intro h
        exact ⟨account, rfl, h⟩
      · rintro ⟨_, ⟨⟩, h⟩
        exact h
  | cons first rest ih =>
      obtain ⟨⟨heights, revisions⟩, hrest⟩ := List.forall_mem_cons.1 earlier
      rw [visit_eq_ok_iff_visits sound heights revisions]
      constructor
      · rintro ⟨next, hfirst, hlast⟩
        obtain ⟨between, hbetween, hafter⟩ := (ih (sound.visit hfirst) hrest).1 hlast
        exact ⟨between, Results.bind_eq_ok.2 ⟨next, hfirst, hbetween⟩, hafter⟩
      · rintro ⟨between, hall, hafter⟩
        obtain ⟨next, hfirst, hbetween⟩ := Results.bind_eq_ok.1 hall
        exact ⟨next, hfirst, (ih (sound.visit hfirst) hrest).2 ⟨between, hbetween, hafter⟩⟩

/-- **However often an account is visited, a later visit finds it as if it had never been visited
before.**  If it is accepted without the visits before it, all of them are accepted and lead to the
same account; if it is refused without them, it or one of them is refused. -/
theorem visits_before (sound : account.Sound) {visits : List Visit}
    (earlier : ∀ visit ∈ visits, visit.height ≤ last.height ∧ visit.revision ≤ last.revision) :
    (∀ after, account.visit last = .ok after →
      ∃ between, account.visitAll visits = .ok between ∧ between.visit last = .ok after) ∧
    ∀ error, account.visit last = .error error →
      (∃ refusal, account.visitAll visits = .error refusal) ∨
        ∃ between refusal, account.visitAll visits = .ok between ∧
          between.visit last = .error refusal := by
  refine ⟨fun after => (visit_eq_ok_iff_visitAll sound earlier).1, fun error hrefused => ?_⟩
  cases hall : account.visitAll visits with
  | error refusal => exact Or.inl ⟨refusal, rfl⟩
  | ok between =>
      cases hlast : between.visit last with
      | error refusal => exact Or.inr ⟨between, refusal, rfl, hlast⟩
      | ok after =>
          have haccepted := (visit_eq_ok_iff_visitAll sound earlier).2 ⟨between, hall, hlast⟩
          cases hrefused.symm.trans haccepted

/-- The single policy releases the single amount, a first visit under the slot policy the first
slot, and the last one the other slot, where the last one alone releases all of it. -/
theorem visits_before_mixed :
    ∃ between after, mixed.visitAll [⟨10, ⟨5⟩⟩, ⟨12, ⟨9⟩⟩] = .ok between ∧
      between.visit ⟨20, ⟨9⟩⟩ = .ok after ∧ mixed.visit ⟨20, ⟨9⟩⟩ = .ok after ∧
      after.coin.map CoinPart.balance = some 142 := by
  obtain ⟨haccepted, -⟩ :=
    @visits_before mixed ⟨20, ⟨9⟩⟩ mixed_sound [⟨10, ⟨5⟩⟩, ⟨12, ⟨9⟩⟩] (by decide)
  obtain ⟨between, hall, hlast⟩ := haccepted _ rfl
  exact ⟨between, _, hall, hlast, rfl, rfl⟩

end Account

end StakeLedger
