/-
**What the store holds of an address, through one session.**

In a session an account is loaded, operated on, and saved.  A session need not load all parts of its
account: one that loads the coin part alone leaves the stake part in the store as it was, although
the flag in the coin part speaks of it.  So the entry of an address in the store is followed here,
with fresh parts where nothing is stored: a session opens an account from it, and saving lays what
became of the account over it.

Main definitions:

* `StakeLedger.Session` — sessions;
* `StakeLedger.Entry`, `StakeLedger.PartMap.Holds` — what the store holds of an address;
* `StakeLedger.Entry.Kept` — **what holds of an entry after every session**;
* `StakeLedger.Entry.opened`, `StakeLedger.Entry.closed` — the account that a session loads and the
  one that it saves;
* `StakeLedger.Entry.overlaid` — the entry after an account was saved over it.

Main results:

* `StakeLedger.Entry.Kept.load_eq_ok`, `StakeLedger.Entry.Kept.save_closed` — neither loading nor
  saving fails;
* `StakeLedger.Entry.Kept.overlaid` — **what holds of an entry holds of it after a session**;
* `StakeLedger.Account.Saved.holds_own`, `StakeLedger.Account.Saved.holds_other` — what the store
  holds once an account was saved.
-/
import StakeLedger.Proofs.Loaded
import StakeLedger.Proofs.Refusal
import StakeLedger.Proofs.Saving

set_option autoImplicit false

namespace StakeLedger

open Account

/-! ### What a record keeps -/

namespace StakePart

variable {part : StakePart}

theorem WellFormed.stored (h : part.WellFormed) (revision : Revision) :
    (part.stored revision).WellFormed where
  toSound := h.toSound.stored revision
  fits := by
    rw [stake_stored, pending_stored]
    exact h.fits
  one_shape := by
    unfold StakePart.stored
    split
    · exact Or.inl rfl
    · exact h.one_shape

theorem HeightsFit.stored (h : part.HeightsFit) (revision : Revision) :
    (part.stored revision).HeightsFit := by
  unfold StakePart.stored
  split
  · exact ⟨Nat.zero_le _, h.schedule⟩
  · exact ⟨h.height_le, h.heights_le⟩

/-- A record has other slots than the part only where several unstakes are known. -/
theorem slots_stored_or (part : StakePart) (revision : Revision) :
    revision.hasMultipleUnstake = true ∨ (part.stored revision).slots = part.slots := by
  unfold stored
  split
  · next h => exact Or.inl h
  · exact Or.inr rfl

end StakePart

/-! ### Sessions -/

/-- An account that is loaded, operated on, and saved. -/
structure Session where
  address : Address
  /-- The parts that are asked for. -/
  wanted : List PartKind
  height : Nat
  revision : Revision
  operations : List Operation

/-- Loads the account of a session. -/
def Session.load (session : Session) : StoreM Account :=
  Account.load session.address session.wanted session.height session.revision

/-- A session whose operations go by its own revision and bring no delegations out of the range of
amounts. -/
structure Session.Uniform (session : Session) : Prop where
  revision_eq : ∀ revision ∈ session.operations.filterMap Operation.revision?,
    revision = session.revision
  inRange : ∀ operation ∈ session.operations, operation.InRange

/-- An account whose lists are short enough for their records. -/
structure Account.Short (account : Account) : Prop where
  slots_short : ∀ part, account.stake = some part → part.slots.length < 0x100000000
  delegations_short : ∀ part, account.delegation = some part →
    part.delegations.length < 0x100000000

instance (account : Account) : Decidable account.Short :=
  decidable_of_iff
    ((∀ part ∈ account.stake, part.slots.length < 0x100000000) ∧
      ∀ part ∈ account.delegation, part.delegations.length < 0x100000000)
    ⟨fun h => ⟨h.1, h.2⟩, fun h => ⟨h.slots_short, h.delegations_short⟩⟩

/-! ### Entries -/

/-- What the store holds of an address, fresh parts included. -/
structure Entry where
  coin : CoinPart
  stake : StakePart
  delegation : DelegationPart

/-- The stored parts hold an entry under the keys of an address. -/
structure PartMap.Holds (parts : PartMap) (address : Address) (entry : Entry) : Prop where
  read_coin : parts.read ⟨address, .coin⟩ CoinPart.ofBytes .empty = .ok entry.coin
  read_stake : parts.read ⟨address, .stake⟩ StakePart.ofBytes .empty = .ok entry.stake
  read_delegation :
    parts.read ⟨address, .delegation⟩ DelegationPart.ofBytes .empty = .ok entry.delegation

namespace Entry

/-- The entry of an address under which nothing is stored. -/
def empty : Entry := { coin := .empty, stake := .empty, delegation := .empty }

/-- What an entry holds: the balance, the stake and what is pending. -/
def worth (entry : Entry) : Int := entry.coin.balance + entry.stake.stake + entry.stake.pending

/-- What holds of an entry after every session: the invariants of its parts, slots only where
several unstakes are known, and of the whole that it is worth the net deposits, that the flag tells
whether something is pending, and that what the coin part is for never changed. -/
structure Kept (entry : Entry) (revision : Revision) (net : Int) : Prop where
  balance_nonneg : 0 ≤ entry.coin.balance
  wellFormed : entry.stake.WellFormed
  heightsFit : entry.stake.HeightsFit
  slots_known : entry.stake.slots ≠ [] → revision.hasMultipleUnstake = true
  delegation_inRange : entry.delegation.InRange
  worth_eq : entry.worth = net
  synced : entry.coin.hasFlag CoinPart.hasUnstakeFlag = true ↔ 0 < entry.stake.pending
  fixed_eq : entry.coin.fixed = CoinPart.empty.fixed

theorem empty_kept (revision : Revision) : empty.Kept revision 0 where
  balance_nonneg := Int.le_refl 0
  wellFormed := StakePart.WellFormed.empty
  heightsFit := ⟨Nat.zero_le _, nofun⟩
  slots_known h := absurd rfl h
  delegation_inRange := ⟨Int.le_refl 0, by decide, nofun, nofun⟩
  worth_eq := rfl
  synced := by decide
  fixed_eq := rfl

/-- An entry that no session touches stays in order at later revisions. -/
theorem Kept.later {entry : Entry} {revision later : Revision} {net : Int}
    (kept : entry.Kept revision net) (le : revision ≤ later) : entry.Kept later net :=
  { kept with
    slots_known := fun hslots => Revision.hasMultipleUnstake_of_le (kept.slots_known hslots) le }

/-- The account that a session loads from an entry, before anything is released. -/
def opened (entry : Entry) (session : Session) : Account where
  address := session.address
  height := session.height
  revision := session.revision
  coin :=
    if session.wanted.contains .coin || session.wanted.contains .stake then some entry.coin
    else none
  stake := if session.wanted.contains .stake then some entry.stake else none
  delegation := if session.wanted.contains .delegation then some entry.delegation else none

/-- The entry after an account was saved over it. -/
def overlaid (entry : Entry) (account : Account) : Entry where
  coin := account.coin.getD entry.coin
  stake := (account.stake.map fun part => part.stored account.revision).getD entry.stake
  delegation := account.delegation.getD entry.delegation

variable {entry : Entry} {account : Account}

/-- What holds of the coin part that was there and of the one that is loaded holds of the one that
saving leaves. -/
theorem coin_overlaid {P : CoinPart → Prop} (unloaded : P entry.coin)
    (loaded : ∀ coin, account.coin = some coin → P coin) : P (entry.overlaid account).coin := by
  rw [overlaid]
  cases hcoin : account.coin with
  | none => exact unloaded
  | some coin => exact loaded coin hcoin

/-- The same for the stake part, of which saving leaves what its record keeps. -/
theorem stake_overlaid {P : StakePart → Prop} (unloaded : P entry.stake)
    (loaded : ∀ part, account.stake = some part → P (part.stored account.revision)) :
    P (entry.overlaid account).stake := by
  rw [overlaid]
  cases hstake : account.stake with
  | none => exact unloaded
  | some part => exact loaded part hstake

theorem delegation_overlaid {P : DelegationPart → Prop} (unloaded : P entry.delegation)
    (loaded : ∀ part, account.delegation = some part → P part) :
    P (entry.overlaid account).delegation := by
  rw [overlaid]
  cases hdelegation : account.delegation with
  | none => exact unloaded
  | some part => exact loaded part hdelegation

variable {session : Session} {revision : Revision} {net : Int}

/-! ### What a session loads -/

/-- A session finds both parts, or the coin part alone, or neither. -/
theorem opened_cases (entry : Entry) (session : Session) :
    ((entry.opened session).coin = some entry.coin ∧
        (entry.opened session).stake = some entry.stake) ∨
      ((entry.opened session).coin = some entry.coin ∧ (entry.opened session).stake = none) ∨
        ((entry.opened session).coin = none ∧ (entry.opened session).stake = none) := by
  unfold opened
  cases session.wanted.contains .coin <;> cases session.wanted.contains .stake <;> simp

theorem isSome_coin_opened (h : (entry.opened session).stake.isSome = true) :
    (entry.opened session).coin.isSome = true := by
  rcases entry.opened_cases session with ⟨hcoin, -⟩ | ⟨hcoin, -⟩ | ⟨-, hstake⟩
  · rw [hcoin]
    rfl
  · rw [hcoin]
    rfl
  · rw [hstake] at h
    cases h

theorem coin_of_opened {coin : CoinPart} (h : (entry.opened session).coin = some coin) :
    coin = entry.coin := by
  unfold opened at h
  exact Option.some.inj (Option.ite_none_right_eq_some.1 h).2.symm

theorem stake_of_opened {part : StakePart} (h : (entry.opened session).stake = some part) :
    part = entry.stake := by
  unfold opened at h
  exact Option.some.inj (Option.ite_none_right_eq_some.1 h).2.symm

theorem delegation_of_opened {part : DelegationPart}
    (h : (entry.opened session).delegation = some part) : part = entry.delegation := by
  unfold opened at h
  exact Option.some.inj (Option.ite_none_right_eq_some.1 h).2.symm

/-- **Loading releases from the entry of the address.** -/
theorem load_eq {store : Store} (readable : store.Readable)
    (holds : store.parts.Holds session.address entry) :
    session.load store =
      ((entry.opened session).apply (.normalize session.revision), store) :=
  load_apply readable (PartMap.readWanted_eq holds.read_coin _)
    (PartMap.readWanted_eq holds.read_stake _) (PartMap.readWanted_eq holds.read_delegation _)
    session.height session.revision

theorem Kept.wellFormed_opened (kept : entry.Kept revision net) :
    (entry.opened session).WellFormed where
  balance_nonneg coin hcoin := by
    rw [coin_of_opened hcoin]
    exact kept.balance_nonneg
  stake_wellFormed part hpart := by
    rw [stake_of_opened hpart]
    exact kept.wellFormed

/-- Nothing refuses a release: the balance has room for all that the entry is worth. -/
theorem Kept.releaseRefusal_eq_none (kept : entry.Kept revision net)
    (bounded : net ≤ Amount.greatest) (later : Revision) :
    (entry.opened session).releaseRefusal later = none := by
  rcases entry.opened_cases session with ⟨hcoin, hstake⟩ | ⟨-, hstake⟩ | ⟨-, hstake⟩
  · have hworth := kept.worth_eq
    rw [worth] at hworth
    exact Account.releaseRefusal_eq_none kept.wellFormed_opened.sound hcoin hstake (by omega) later
  · rw [releaseRefusal, hstake]
  · rw [releaseRefusal, hstake]

/-- **Loading never fails as long as the net deposits are an amount.** -/
theorem Kept.load_eq_ok (kept : entry.Kept revision net) (bounded : net ≤ Amount.greatest)
    {store : Store} (readable : store.Readable)
    (holds : store.parts.Holds session.address entry) :
    session.load store =
      (.ok ((entry.opened session).step (.normalize session.revision)), store) := by
  have hformed : (entry.opened session).WellFormed := kept.wellFormed_opened
  have haccepted := perform_normalize_of_releaseRefusal hformed.sound
    (kept.releaseRefusal_eq_none bounded session.revision)
  rw [Entry.load_eq readable holds,
    apply_eq_ok_of_accepted (congrArg Prod.fst haccepted)]

/-! ### What a session saves -/

/-- The account that a session saves. -/
def closed (entry : Entry) (session : Session) : Account :=
  (entry.opened session).run (.normalize session.revision :: session.operations)

theorem continues_closed (entry : Entry) (session : Session) :
    (entry.opened session).Continues (entry.closed session) :=
  continues_run _ _

/-- What is loaded at the end of a session was there at its beginning: both parts, or the coin part
alone, or neither. -/
theorem closed_cases (entry : Entry) (session : Session) :
    (∃ coin part, (entry.closed session).coin = some coin ∧
        (entry.closed session).stake = some part ∧
          (entry.opened session).coin = some entry.coin ∧
            (entry.opened session).stake = some entry.stake) ∨
      (∃ coin, (entry.closed session).coin = some coin ∧ (entry.closed session).stake = none ∧
        (entry.opened session).coin = some entry.coin ∧ (entry.opened session).stake = none) ∨
        ((entry.closed session).coin = none ∧ (entry.closed session).stake = none ∧
          (entry.opened session).coin = none ∧ (entry.opened session).stake = none) := by
  have hcontinues := entry.continues_closed session
  have hcoins := hcontinues.isSome_coin
  have hstakes := hcontinues.isSome_stake
  rcases entry.opened_cases session with ⟨hcoin, hstake⟩ | ⟨hcoin, hstake⟩ | ⟨hcoin, hstake⟩
  · rw [hcoin] at hcoins
    rw [hstake] at hstakes
    obtain ⟨coin, hcoin'⟩ := Option.isSome_iff_exists.1 hcoins
    obtain ⟨part, hstake'⟩ := Option.isSome_iff_exists.1 hstakes
    exact Or.inl ⟨coin, part, hcoin', hstake', hcoin, hstake⟩
  · rw [hcoin] at hcoins
    obtain ⟨coin, hcoin'⟩ := Option.isSome_iff_exists.1 hcoins
    exact Or.inr (Or.inl ⟨coin, hcoin', hcontinues.stake_eq_none hstake, hcoin, hstake⟩)
  · exact Or.inr (Or.inr ⟨hcontinues.coin_eq_none hcoin, hcontinues.stake_eq_none hstake, hcoin,
      hstake⟩)

/-- A session changes what an entry is worth by what it pays in. -/
theorem Kept.worth_overlaid (kept : entry.Kept revision net) :
    (entry.overlaid (entry.closed session)).worth =
      net + (entry.opened session).inflow (.normalize session.revision :: session.operations) := by
  have hformed : (entry.opened session).WellFormed := kept.wellFormed_opened
  have hrun : (entry.closed session).worth = _ := worth_run hformed.sound isSome_coin_opened _
  have hworth := kept.worth_eq
  rw [worth, overlaid]
  rw [worth] at hworth
  rcases entry.closed_cases session with ⟨coin, part, hcoin', hstake', hcoin, hstake⟩ |
    ⟨coin, hcoin', hstake', hcoin, hstake⟩ | ⟨hcoin', hstake', hcoin, hstake⟩
  · rw [worth_of_loaded hcoin' hstake', worth_of_loaded hcoin hstake] at hrun
    simp only [hcoin', hstake', Option.getD_some, Option.map_some, StakePart.stake_stored,
      StakePart.pending_stored]
    omega
  · -- the stake part stays in the store, and the balance alone changes
    rw [worth_of_unstaked hstake', worth_of_unstaked hstake, balance_of_loaded hcoin',
      balance_of_loaded hcoin] at hrun
    simp only [hcoin', hstake', Option.getD_some, Option.map_none, Option.getD_none]
    omega
  · rw [worth_of_unstaked hstake', worth_of_unstaked hstake, balance_of_unloaded hcoin',
      balance_of_unloaded hcoin] at hrun
    simp only [hcoin', hstake', Option.map_none, Option.getD_none]
    omega

/-- The flag goes on telling whether something is pending, also where the stake part stayed in the
store. -/
theorem Kept.synced_overlaid (kept : entry.Kept revision net) :
    (entry.overlaid (entry.closed session)).coin.hasFlag CoinPart.hasUnstakeFlag = true ↔
      0 < (entry.overlaid (entry.closed session)).stake.pending := by
  rw [overlaid]
  rcases entry.closed_cases session with ⟨coin, part, hcoin', hstake', hcoin, hstake⟩ |
    ⟨coin, hcoin', hstake', hcoin, hstake⟩ | ⟨hcoin', hstake', -, -⟩
  · have hopened : (entry.opened session).Synced := by
      intro found stake hfound hpart
      rw [coin_of_opened hfound, stake_of_opened hpart]
      exact kept.synced
    have hclosed : (entry.closed session).Synced := synced_run hopened _
    simp only [hcoin', hstake', Option.getD_some, Option.map_some, StakePart.pending_stored]
    exact hclosed coin part hcoin' hstake'
  · -- without its stake part an account keeps its flags
    have hflags := (entry.continues_closed session).flags_eq hstake
    rw [hcoin', hcoin, Option.map_some, Option.map_some, Option.some.injEq] at hflags
    have hsynced := kept.synced
    simp only [hcoin', hstake', Option.getD_some, Option.map_none, Option.getD_none]
    rw [CoinPart.hasFlag] at hsynced ⊢
    rwa [hflags]
  · simp only [hcoin', hstake', Option.map_none, Option.getD_none]
    exact kept.synced

theorem Kept.fixed_overlaid (kept : entry.Kept revision net) :
    (entry.overlaid (entry.closed session)).coin.fixed = CoinPart.empty.fixed := by
  refine @coin_overlaid _ _ (fun coin => coin.fixed = CoinPart.empty.fixed) kept.fixed_eq ?_
  intro coin hcoin
  have hfixed := (entry.continues_closed session).fixed_eq
  rw [hcoin, Option.map_some] at hfixed
  obtain ⟨before, hbefore, hsame⟩ := Option.map_eq_some_iff.1 hfixed.symm
  rw [coin_of_opened hbefore] at hsame
  exact hsame.symm.trans kept.fixed_eq

/-- The operations of a session ascend from what it loads, and so do they with a last release. -/
theorem Kept.ascending_opened (kept : entry.Kept revision net) (le : revision ≤ session.revision)
    (uniform : session.Uniform) :
    (entry.opened session).Ascending
      ((.normalize session.revision :: session.operations) ++ [.normalize session.revision]) := by
  have hsame : ∀ found ∈ ((Operation.normalize session.revision :: session.operations) ++
      [Operation.normalize session.revision]).filterMap Operation.revision?,
        found = session.revision := by
    intro found hmem
    rw [List.filterMap_append, List.mem_append] at hmem
    rcases hmem with hmem | hlast
    · rcases List.mem_cons.1 hmem with hfirst | hmem
      · exact hfirst
      · exact uniform.revision_eq found hmem
    · exact List.mem_singleton.1 hlast
  constructor
  · rw [List.eq_replicate_iff.2 ⟨rfl, hsame⟩, List.pairwise_replicate]
    exact Or.inr (Nat.le_refl _)
  · intro part hpart hslots found hmem
    rw [stake_of_opened hpart] at hslots
    rw [hsame found hmem]
    exact Revision.hasMultipleUnstake_of_le (kept.slots_known hslots) le

/-- At the end of a session the account is well-formed, and slots are left only where several
unstakes are known. -/
theorem Kept.wellFormed_closed (kept : entry.Kept revision net) (le : revision ≤ session.revision)
    (uniform : session.Uniform) :
    (entry.closed session).WellFormed ∧
      (entry.closed session).Ascending [.normalize session.revision] :=
  kept.wellFormed_opened.run (kept.ascending_opened le uniform)

theorem Kept.heightsFit_closed (kept : entry.Kept revision net) :
    ∀ part, (entry.closed session).stake = some part → part.HeightsFit := by
  refine heightsFit_run ?_ _
  intro part hpart
  rw [stake_of_opened hpart]
  exact kept.heightsFit

theorem Kept.delegationInRange_closed (kept : entry.Kept revision net) (uniform : session.Uniform) :
    ∀ part, (entry.closed session).delegation = some part → part.InRange := by
  refine delegationInRange_run ?_ ?_
  · intro part hpart
    rw [delegation_of_opened hpart]
    exact kept.delegation_inRange
  · intro operation hmem
    rcases List.mem_cons.1 hmem with rfl | hmem
    · trivial
    · exact uniform.inRange operation hmem

/-- Slots at the end of a session show that it knows several unstakes. -/
theorem Kept.slots_known_closed (kept : entry.Kept revision net) (le : revision ≤ session.revision)
    (uniform : session.Uniform) {part : StakePart}
    (loaded : (entry.closed session).stake = some part) (hslots : part.slots ≠ []) : session.revision.hasMultipleUnstake = true :=
  (kept.wellFormed_closed le uniform).2.slots_known part loaded hslots session.revision
    List.mem_cons_self

/-- **What holds of an entry holds of it after a session.** -/
theorem Kept.overlaid (kept : entry.Kept revision net) (le : revision ≤ session.revision)
    (uniform : session.Uniform) :
    (entry.overlaid (entry.closed session)).Kept session.revision
      (net + (entry.opened session).inflow
        (.normalize session.revision :: session.operations)) where
  balance_nonneg :=
    coin_overlaid kept.balance_nonneg (kept.wellFormed_closed le uniform).1.balance_nonneg
  wellFormed := by
    refine stake_overlaid kept.wellFormed ?_
    intro part hstake
    exact ((kept.wellFormed_closed le uniform).1.stake_wellFormed part hstake).stored _
  heightsFit := by
    refine stake_overlaid kept.heightsFit ?_
    intro part hstake
    exact (kept.heightsFit_closed part hstake).stored _
  slots_known := by
    refine @stake_overlaid _ _
      (fun part => part.slots ≠ [] → session.revision.hasMultipleUnstake = true)
      (fun hslots => Revision.hasMultipleUnstake_of_le (kept.slots_known hslots) le) ?_
    intro part hstake hslots
    rw [(entry.continues_closed session).revision_eq] at hslots
    rcases part.slots_stored_or session.revision with hmultiple | hsame
    · exact hmultiple
    · exact kept.slots_known_closed le uniform hstake (hsame ▸ hslots)
  delegation_inRange :=
    delegation_overlaid kept.delegation_inRange (kept.delegationInRange_closed uniform)
  worth_eq := kept.worth_overlaid
  synced := kept.synced_overlaid
  fixed_eq := kept.fixed_overlaid

/-- What a session leaves can be recorded as long as it is worth an amount. -/
theorem Kept.recordable_closed (kept : entry.Kept revision net) (le : revision ≤ session.revision)
    (uniform : session.Uniform) (short : (entry.closed session).Short)
    (bounded : net + (entry.opened session).inflow
      (.normalize session.revision :: session.operations) ≤ Amount.greatest) :
    (entry.closed session).Recordable where
  coin_recordable coin hcoin := by
    have hafter := kept.overlaid le uniform
    have hsound := hafter.wellFormed.toSound
    have hstake := hsound.stake_nonneg
    have hpending := hsound.pending_nonneg
    have hworth := hafter.worth_eq
    have hsame : (entry.overlaid (entry.closed session)).coin = coin := by
      rw [Entry.overlaid, hcoin, Option.getD_some]
    rw [worth, hsame] at hworth
    exact ⟨(kept.wellFormed_closed le uniform).1.balance_nonneg coin hcoin, by omega⟩
  stake_recordable part hstake := by
    have hformed := (kept.wellFormed_closed le uniform).1.stake_wellFormed part hstake
    have hlength := hformed.length_adopt_le (Nat.le_refl 1)
    have hshort := short.slots_short part hstake
    refine { toSound := hformed.toSound
             toHeightsFit := kept.heightsFit_closed part hstake
             in_range := hformed.fits
             length_lt := ?_ }
    rw [StakePart.schedule]
    omega
  delegation_recordable part hdelegation :=
    { toInRange := kept.delegationInRange_closed uniform part hdelegation
      length_lt := short.delegations_short part hdelegation }
  coin_loaded hstake := by
    rcases entry.closed_cases session with ⟨coin, _, hcoin, -⟩ | ⟨coin, hcoin, -⟩ | ⟨-, hnone, -⟩
    · rw [hcoin]
      rfl
    · rw [hcoin]
      rfl
    · rw [hnone] at hstake
      cases hstake

/-- **Saving never fails in a store without faults.** -/
theorem Kept.save_closed (kept : entry.Kept revision net) (le : revision ≤ session.revision)
    (uniform : session.Uniform) {store : Store} (working : store.failing = none) :
    ∃ after, (entry.closed session).save store = (.ok (), after) ∧
      (entry.closed session).Saved store after := by
  rcases (entry.closed session).save_settled store with hsaved | ⟨part, error, hstake, hbytes, -⟩ |
    ⟨error, -, -, hfailing, -⟩
  · exact hsaved
  · obtain ⟨hsingle, hslots, -⟩ := StakePart.toBytes_eq_error_iff.1 hbytes
    rw [(entry.continues_closed session).revision_eq] at hsingle
    cases hsingle.symm.trans (kept.slots_known_closed le uniform hstake hslots)
  · rw [working] at hfailing
    cases hfailing

end Entry

namespace Account

variable {account : Account} {store after : Store} {entry : Entry}

/-! ### Saving over an entry -/

/-- A part that is not loaded stays in the store as it was. -/
theorem Saved.read_unloaded {α : Type} (h : account.Saved store after) {kind : PartKind}
    (unloaded : account.record? kind = none) (ofBytes : Bytes → Except LedgerError α) (fresh : α) :
    after.parts.read ⟨account.address, kind⟩ ofBytes fresh =
      store.parts.read ⟨account.address, kind⟩ ofBytes fresh := by
  rw [PartMap.read, h.get?_own, unloaded, Option.none_or, PartMap.read]

/-- The parts of other accounts stay in the store as they were. -/
theorem Saved.holds_other (h : account.Saved store after) {address : Address}
    (other : address ≠ account.address) (holds : store.parts.Holds address entry) :
    after.parts.Holds address entry := by
  have hsame : ∀ kind, after.parts.get? (PartKey.toBytes ⟨address, kind⟩) =
      store.parts.get? (PartKey.toBytes ⟨address, kind⟩) := by
    intro kind
    rw [h.get?_eq, if_neg other]
  constructor
  · rw [PartMap.read, hsame]
    exact holds.read_coin
  · rw [PartMap.read, hsame]
    exact holds.read_stake
  · rw [PartMap.read, hsame]
    exact holds.read_delegation

/-- **A saved account lies over the entry that the store held of its address.** -/
theorem Saved.holds_own (h : account.Saved store after) (recordable : account.Recordable)
    (holds : store.parts.Holds account.address entry) :
    after.parts.Holds account.address (entry.overlaid account) where
  read_coin := by
    rw [Entry.overlaid]
    cases hcoin : account.coin with
    | none =>
        rw [h.read_unloaded (by rw [record?, hcoin]; rfl)]
        exact holds.read_coin
    | some coin => exact h.read_coin hcoin (recordable.coin_recordable coin hcoin)
  read_stake := by
    rw [Entry.overlaid]
    cases hstake : account.stake with
    | none =>
        rw [h.read_unloaded (by rw [record?, hstake]; rfl)]
        exact holds.read_stake
    | some part => exact h.read_stake hstake (recordable.stake_recordable part hstake)
  read_delegation := by
    rw [Entry.overlaid]
    cases hdelegation : account.delegation with
    | none =>
        rw [h.read_unloaded (by rw [record?, hdelegation]; rfl)]
        exact holds.read_delegation
    | some part =>
        exact h.read_delegation hdelegation (recordable.delegation_recordable part hdelegation)

end Account

end StakeLedger
