/-
**Saving an account and loading it again is normalizing it.**

An account that is saved and loaded at a later height and revision is the account with that height
and revision in which all that is unlocked has been released; only the count of all that was ever
unstaked starts anew.  The single pending amount becomes a slot on either way: in the record, if the
account is saved where several unstakes are known, and otherwise when the loaded account is
normalized there.

Main definitions:

* `StakeLedger.Account.Recordable` — accounts whose loaded parts a record can hold;
* `StakeLedger.Account.stored`, `StakeLedger.Account.forgotten` — what the records keep of an
  account, and the account without the count of what was ever unstaked.

Main results:

* `StakeLedger.Account.Saved.load_eq` — what is loaded from what was saved;
* `StakeLedger.Account.apply_normalize_stored` — normalizing does not tell an account from what its
  records keep of it;
* `StakeLedger.Account.load_save` — **saving and loading again is normalizing**.
-/
import StakeLedger.Proofs.Effects
import StakeLedger.Proofs.Records
import StakeLedger.Proofs.Representation
import StakeLedger.Proofs.Storing

set_option autoImplicit false

namespace StakeLedger

open Results

/-! ### Releases from what a record keeps -/

namespace StakePart

variable {part : StakePart} {revision later : Revision}

/-- The part without the count of what was ever unstaked. -/
def forgotten (part : StakePart) : StakePart := { part with totalUnstaked := 0 }

@[simp] theorem schedule_stored (part : StakePart) (revision : Revision) :
    (part.stored revision).schedule = part.schedule := by
  unfold stored
  split
  · rfl
  · unfold schedule adopt
    split <;> rfl

@[simp] theorem pending_stored (part : StakePart) (revision : Revision) :
    (part.stored revision).pending = part.pending := by
  rw [← total_schedule, schedule_stored, total_schedule]

@[simp] theorem stake_stored (part : StakePart) (revision : Revision) :
    (part.stored revision).stake = part.stake := by
  unfold stored
  split <;> rfl

theorem Sound.stored (h : part.Sound) (revision : Revision) : (part.stored revision).Sound := by
  rw [StakePart.stored]
  split
  · exact ⟨h.stake_nonneg, Int.le_refl 0, h.schedule_valid⟩
  · exact ⟨h.stake_nonneg, h.unstake_nonneg, h.slots_valid⟩

/-- Where one pending unstake is known the record keeps the part as it is. -/
theorem stored_of_single (h : revision.hasMultipleUnstake = false) :
    part.stored revision = part.forgotten := by
  rw [stored, h, if_neg (by decide)]
  rfl

/-- Where several are known the record keeps the adopted part, whose height is clear. -/
theorem stored_of_multiple (h : revision.hasMultipleUnstake = true)
    (clear : part.unstake = 0 → part.unstakeHeight = 0) :
    part.stored revision = part.adopt.forgotten := by
  rw [stored, h, if_pos rfl, schedule, forgotten, adopt]
  split
  · next hzero => rw [hzero, clear hzero]; rfl
  · rfl

theorem adopt_forgotten (part : StakePart) : part.forgotten.adopt = part.adopt.forgotten := by
  unfold adopt forgotten
  split <;> rfl

theorem release_forgotten (part : StakePart) (policy : UnstakePolicy) (height : Nat) :
    policy.release part.forgotten height = (policy.release part height).forgotten := by
  cases policy with
  | single =>
      change (if UnstakePolicy.singleUnlocked part height = true then _ else _) =
        StakePart.forgotten (if _ then _ else _)
      split <;> rfl
  | slots =>
      simp only [UnstakePolicy.release, adopt_forgotten]
      rfl

/-- A later revision releases from what the record keeps what it releases from the part. -/
theorem release_stored (clear : part.unstake = 0 → part.unstakeHeight = 0)
    (le : revision ≤ later) (height : Nat) :
    (UnstakePolicy.ofRevision later).release (part.stored revision) height =
      ((UnstakePolicy.ofRevision later).release part height).forgotten := by
  cases hmultiple : revision.hasMultipleUnstake with
  | false => rw [stored_of_single hmultiple, release_forgotten]
  | true =>
      have hlater := UnstakePolicy.ofRevision_of_le hmultiple le
      rw [stored_of_multiple hmultiple clear, release_forgotten, hlater, UnstakePolicy.release_adopt]

/-- A later revision counts as unlocked what it counts of the part. -/
theorem matured_stored (sound : part.Sound) (le : revision ≤ later) (height : Nat) :
    (UnstakePolicy.ofRevision later).matured (part.stored revision) height =
      (UnstakePolicy.ofRevision later).matured part height := by
  cases hmultiple : revision.hasMultipleUnstake with
  | false =>
      rw [stored_of_single hmultiple]
      cases UnstakePolicy.ofRevision later <;> rfl
  | true =>
      have hlater := UnstakePolicy.ofRevision_of_le hmultiple le
      rw [hlater, UnstakePolicy.matured_schedule (sound.stored revision).unstake_nonneg,
        UnstakePolicy.matured_schedule sound.unstake_nonneg, schedule_stored]

end StakePart

namespace Account

/-! ### What the records keep of an account -/

/-- Whether the part of a kind is loaded. -/
def Holds (account : Account) : PartKind → Prop
  | .coin => account.coin.isSome = true
  | .stake => account.stake.isSome = true
  | .delegation => account.delegation.isSome = true

/-- An account whose loaded parts a record can hold, and whose stake part never comes without the
coin part. -/
structure Recordable (account : Account) : Prop where
  coin_recordable : ∀ coin, account.coin = some coin → coin.Recordable
  stake_recordable : ∀ part, account.stake = some part → part.Recordable
  delegation_recordable : ∀ part, account.delegation = some part → part.Recordable
  coin_loaded : account.stake.isSome = true → account.coin.isSome = true

/-- What the records keep of an account. -/
def stored (account : Account) : Account :=
  { account with stake := account.stake.map fun part => part.stored account.revision }

/-- The account without the count of what was ever unstaked. -/
def forgotten (account : Account) : Account :=
  { account with stake := account.stake.map StakePart.forgotten }

variable {account : Account} {store after : Store} {revision : Revision}

/-! ### Reading what was saved -/

/-- The coin part reads back. -/
theorem Saved.read_coin (h : account.Saved store after) {coin : CoinPart}
    (loaded : account.coin = some coin) (recordable : coin.Recordable) :
    after.parts.read ⟨account.address, .coin⟩ CoinPart.ofBytes .empty = .ok coin := by
  rw [PartMap.read, h.get?_own, record?, loaded]
  exact recordable.ofBytes_toBytes

/-- Of the stake part reads back what its record keeps. -/
theorem Saved.read_stake (h : account.Saved store after) {part : StakePart}
    (loaded : account.stake = some part) (recordable : part.Recordable) :
    after.parts.read ⟨account.address, .stake⟩ StakePart.ofBytes .empty =
      .ok (part.stored account.revision) := by
  obtain ⟨bytes, hbytes⟩ := h.stake_recorded part loaded
  have hrecord : account.record? .stake = some bytes := by
    rw [record?, loaded, Option.bind_some, hbytes]
    rfl
  rw [PartMap.read, h.get?_own, hrecord]
  exact recordable.ofBytes_toBytes hbytes

/-- The delegation part reads back. -/
theorem Saved.read_delegation (h : account.Saved store after) {part : DelegationPart}
    (loaded : account.delegation = some part) (recordable : part.Recordable) :
    after.parts.read ⟨account.address, .delegation⟩ DelegationPart.ofBytes .empty = .ok part := by
  rw [PartMap.read, h.get?_own, record?, loaded]
  exact recordable.ofBytes_toBytes

theorem readWanted_of_read {α : Type} {parts : PartMap} {key : PartKey}
    {ofBytes : Bytes → Except LedgerError α} {fresh : α} {wanted : Bool} {part : Option α}
    (hwanted : wanted = part.isSome)
    (hread : ∀ found, part = some found → parts.read key ofBytes fresh = .ok found) :
    parts.readWanted wanted key ofBytes fresh = .ok part := by
  rw [PartMap.readWanted, hwanted]
  cases part with
  | none => rfl
  | some found =>
      rw [Option.isSome_some, if_pos rfl, hread found rfl]
      rfl

/-- **What is loaded from what was saved is what the records keep, with all released that is
unlocked.** -/
theorem Saved.load_eq (h : account.Saved store after) (recordable : account.Recordable)
    (readable : store.Readable) {wanted : List PartKind}
    (kinds : ∀ kind, kind ∈ wanted ↔ account.Holds kind) (height : Nat) (revision : Revision) :
    load account.address wanted height revision after =
      (({ account.stored with height, revision } : Account).apply (.normalize revision),
        after) := by
  have hwanted : ∀ kind, ∀ b : Bool, (account.Holds kind ↔ b = true) →
      wanted.contains kind = b := by
    intro kind b hb
    rw [Bool.eq_iff_iff, List.contains_iff_mem, kinds, hb]
  have hcoin := hwanted .coin account.coin.isSome Iff.rfl
  have hstake := hwanted .stake account.stake.isSome Iff.rfl
  have hdelegation := hwanted .delegation account.delegation.isSome Iff.rfl
  refine load_apply (h.readable readable) ?_ ?_ ?_ height revision
  · refine readWanted_of_read ?_ fun coin loaded =>
      h.read_coin loaded (recordable.coin_recordable coin loaded)
    rw [hcoin, hstake]
    change (account.coin.isSome || account.stake.isSome) = account.coin.isSome
    rw [Bool.or_eq_left_iff_imp]
    exact recordable.coin_loaded
  · refine readWanted_of_read ?_ ?_
    · rw [hstake, stored, Option.isSome_map]
    · intro found hfound
      obtain ⟨part, loaded, rfl⟩ := Option.map_eq_some_iff.1 hfound
      exact h.read_stake loaded (recordable.stake_recordable part loaded)
  · exact readWanted_of_read hdelegation fun part loaded =>
      h.read_delegation loaded (recordable.delegation_recordable part loaded)

/-! ### Normalizing -/

/-- Normalizing, as one equation. -/
theorem apply_normalize (account : Account) (revision : Revision) :
    account.apply (.normalize revision) =
      match account.stake with
      | none => .ok account
      | some part =>
          let policy := UnstakePolicy.ofRevision revision
          let matured := policy.matured part account.height
          if 0 < matured then
            match account.coin with
            | none => .error (.partNotLoaded .coin)
            | some coin =>
                if Amount.InRange (coin.balance + matured) then
                  .ok (account.released policy
                    (some { coin with balance := coin.balance + matured }) part)
                else .error (.invalidParameter (.depositOverflow matured))
          else .ok (account.released policy account.coin part) := by
  have hperform : account.perform (.normalize revision) = normalize revision account := rfl
  rw [apply, hperform]
  cases hstake : account.stake with
  | none => rw [normalize_of_unstaked hstake]
  | some part =>
      by_cases hpos : 0 < (UnstakePolicy.ofRevision revision).matured part account.height
      · rw [normalize_of_matured hstake hpos]
        simp only [if_pos hpos]
        cases account.coin with
        | none => rfl
        | some coin =>
            by_cases hfits : Amount.InRange (coin.balance +
                (UnstakePolicy.ofRevision revision).matured part account.height)
            · simp only [if_pos hfits]
            · simp only [if_neg hfits]
      · rw [normalize_of_settled hstake hpos]
        simp only [if_neg hpos]

theorem forgotten_synced (account : Account) :
    account.forgotten.synced = account.synced.forgotten := by
  obtain ⟨address, height, revision, coin, stake, delegation⟩ := account
  cases coin <;> cases stake <;> rfl

/-- A release from a part that only counts otherwise what was ever unstaked. -/
theorem released_forgotten {part kept : StakePart} {policy : UnstakePolicy}
    (hkept : policy.release kept account.height = (policy.release part account.height).forgotten)
    (coin : Option CoinPart) :
    account.released policy coin kept = (account.released policy coin part).forgotten := by
  rw [released, released, ← forgotten_synced, hkept]
  rfl

/-- **Normalizing does not tell an account from what the records keep of it, apart from the count of
what was ever unstaked.** -/
theorem apply_normalize_stored (recordable : account.Recordable)
    (clear : ∀ part, account.stake = some part → part.unstake = 0 → part.unstakeHeight = 0)
    (le : account.revision ≤ revision) (height : Nat) :
    ({ account.stored with height, revision } : Account).apply (.normalize revision) =
      (({ account with height, revision } : Account).apply (.normalize revision)).map
        forgotten := by
  rw [apply_normalize, apply_normalize]
  cases hstake : account.stake with
  | none => simp only [stored, hstake, Option.map_none]; rfl
  | some part =>
      have sound := (recordable.stake_recordable part hstake).toSound
      have hmatured := StakePart.matured_stored sound le height
      have hrelease := StakePart.release_stored (clear part hstake) le height
      simp only [stored, hstake, Option.map_some, hmatured]
      by_cases hpos : 0 < (UnstakePolicy.ofRevision revision).matured part height
      · simp only [if_pos hpos]
        cases account.coin with
        | none => rfl
        | some coin =>
            by_cases hfits : Amount.InRange (coin.balance +
                (UnstakePolicy.ofRevision revision).matured part height)
            · simp only [if_pos hfits]
              exact congrArg Except.ok (released_forgotten hrelease _)
            · simp only [if_neg hfits]
              rfl
      · simp only [if_neg hpos]
        exact congrArg Except.ok (released_forgotten hrelease _)

/-! ### Saving and loading -/

/-- A stake part with slots has no record where one pending unstake is known. -/
theorem StakeRecorded.slots_eq_nil (h : account.StakeRecorded) {part : StakePart}
    (loaded : account.stake = some part) (single : account.revision.hasMultipleUnstake = false) :
    part.slots = [] := by
  obtain ⟨bytes, hbytes⟩ := h part loaded
  refine Decidable.byContradiction fun hslots => ?_
  rw [StakePart.toBytes_eq_error_iff.2 ⟨single, hslots, rfl⟩] at hbytes
  cases hbytes

/-- The only reason for which an account is not saved, apart from the fault of the store, is a stake
part with slots where one pending unstake is known. -/
theorem save_eq_error_iff {error : LedgerError} (other : ∀ fault, error ≠ .storage fault) :
    (account.save store).1 = .error error ↔
      account.revision.hasMultipleUnstake = false ∧ ∃ part, account.stake = some part ∧
        part.slots ≠ [] ∧
          error = .invalidParameter (.slotsAtRevision account.revision part.slots.length) := by
  obtain ⟨_, hsave, hsaved⟩ | ⟨part, found, hpart, hbytes, hsave⟩ |
    ⟨fault, _, hsave, -, hrecorded⟩ := account.save_settled store
  · rw [hsave]
    refine ⟨nofun, ?_⟩
    rintro ⟨hsingle, part, hpart, hslots, -⟩
    exact absurd (hsaved.stake_recorded.slots_eq_nil hpart hsingle) hslots
  · obtain ⟨hsingle, hslots, rfl⟩ := StakePart.toBytes_eq_error_iff.1 hbytes
    rw [hsave]
    constructor
    · intro h
      cases h
      exact ⟨hsingle, part, hpart, hslots, rfl⟩
    · rintro ⟨-, found, hfound, -, rfl⟩
      cases hpart.symm.trans hfound
      rfl
  · rw [hsave]
    constructor
    · intro h
      cases h
      exact absurd rfl (other fault)
    · rintro ⟨hsingle, part, hpart, hslots, -⟩
      exact absurd (hrecorded.slots_eq_nil hpart hsingle) hslots

/-- The store refuses a record only as its fault says. -/
theorem failing_of_save_eq_error {fault : StoreError}
    (h : (account.save store).1 = .error (.storage fault)) :
    store.failing = some (.put, fault) := by
  obtain ⟨_, hsave, -⟩ | ⟨part, found, -, hbytes, hsave⟩ | ⟨found, _, hsave, hfailing, -⟩ :=
    account.save_settled store
  · rw [hsave] at h
    cases h
  · obtain ⟨-, -, rfl⟩ := StakePart.toBytes_eq_error_iff.1 hbytes
    rw [hsave] at h
    cases h
  · rw [hsave] at h
    cases h
    exact hfailing

/-- **An account that is saved and loaded at a later height and revision is the account with that
height and revision, normalized, but for the count of what was ever unstaked, which starts anew; and
it is not loaded for the reason for which it is not normalized.  An account is not saved if its
stake part has slots where one pending unstake is known, or if the store fails to store a
record.** -/
theorem load_save (recordable : account.Recordable)
    (clear : ∀ part, account.stake = some part → part.unstake = 0 → part.unstakeHeight = 0)
    (readable : store.Readable) :
    (∀ saved, account.save store = (.ok (), saved) →
      ∀ wanted height revision, (∀ kind, kind ∈ wanted ↔ account.Holds kind) →
        account.revision ≤ revision →
          load account.address wanted height revision saved =
            ((({ account with height, revision } : Account).apply (.normalize revision)).map
              forgotten, saved)) ∧
    (∀ error, (∀ fault, error ≠ .storage fault) →
      ((account.save store).1 = .error error ↔
        account.revision.hasMultipleUnstake = false ∧ ∃ part, account.stake = some part ∧
          part.slots ≠ [] ∧
            error = .invalidParameter (.slotsAtRevision account.revision part.slots.length))) ∧
    ∀ fault, (account.save store).1 = .error (.storage fault) →
      store.failing = some (.put, fault) := by
  refine ⟨?_, fun error other => save_eq_error_iff other, fun fault => failing_of_save_eq_error⟩
  intro saved hsave wanted height revision kinds le
  rw [(saved_of_save_ok hsave).load_eq recordable readable kinds,
    apply_normalize_stored recordable clear le]

/-- An account that knows one pending unstake, which is unlocked when the account is loaded again at
a revision that knows several. -/
def early : Account := { small with revision := .staking }

theorem early_recordable : early.Recordable where
  coin_recordable := by
    rintro _ ⟨⟩
    exact ⟨by decide, by decide⟩
  stake_recordable := by
    rintro _ ⟨⟩
    exact
      { stake_nonneg := by decide
        unstake_nonneg := by decide
        slots_valid := by decide
        height_le := by decide
        heights_le := nofun
        in_range := by decide
        length_lt := by decide }
  delegation_recordable := nofun
  coin_loaded := fun _ => rfl

theorem load_save_early :
    load early.address [.stake, .coin] 12 .multipleUnstake (early.save .empty).2 =
        ((({ early with height := 12, revision := .multipleUnstake } : Account).apply
          (.normalize .multipleUnstake)).map forgotten, (early.save .empty).2) ∧
      ((({ early with height := 12, revision := .multipleUnstake } : Account).apply
        (.normalize .multipleUnstake)).toOption.bind coin).map CoinPart.balance = some 130 := by
  have clear : ∀ part, early.stake = some part → part.unstake = 0 → part.unstakeHeight = 0 := by
    rintro _ ⟨⟩ hzero
    exact absurd hzero (by decide)
  have readable : Store.Readable .empty := nofun
  have hsave : early.save .empty = (.ok (), (early.save .empty).2) := rfl
  have kinds : ∀ kind : PartKind, kind ∈ [PartKind.stake, .coin] ↔ early.Holds kind := by
    rintro ⟨⟩ <;> simp [Holds, early, small]
  obtain ⟨hload, -, -⟩ := load_save early_recordable clear readable
  exact ⟨hload _ hsave [.stake, .coin] 12 .multipleUnstake kinds (by decide), by decide⟩

end Account

end StakeLedger
