/-
**Saving that is interrupted.**

All records are formed before the first one is stored, so that an account whose stake part has no
record is refused with nothing stored.  Then the records are stored one after the other: the store
has no way to store several of them at once, and none is taken back.  Where the store refuses one of
them, those in front of it stay, and everything else is as it was; an account that moved an amount
from its balance into its stake is then stored with the balance lowered and the stake unchanged.

Main definitions:

* `StakeLedger.Store.RefusesAfter` — stores that accept a number of values and refuse the next one;
* `StakeLedger.Account.loadedKinds` — the loaded parts in the order in which they are stored.

Main results:

* `StakeLedger.Account.putRecords_refused` — what is stored when a record is refused;
* `StakeLedger.Account.save_keeps_front` — a save that was interrupted does change the store;
* `StakeLedger.Account.stored_before_refusal` — **what a save that failed leaves in the store**.
-/
import StakeLedger.Proofs.Records
import StakeLedger.Proofs.Storing

set_option autoImplicit false

namespace StakeLedger

open Results Stateful

/-! ### Values that the store refuses -/

/-- A store that accepts `left` more values and refuses the one after them with `fault`. -/
def Store.RefusesAfter (store : Store) (left : Nat) (fault : StoreError) : Prop :=
  store.fault = some { operation := .put, after := left, error := fault }

/-- A value is stored, and counted where the store is to refuse a later one; or it is refused. -/
theorem StoreM.put_counted (key : PartKey) (value : Bytes) (store : Store) :
    (∃ after, put key value store = (.ok (), after) ∧
      after.parts = store.parts.insert key.toBytes value ∧
        ∀ left fault, after.RefusesAfter left fault → store.RefusesAfter (left + 1) fault) ∨
      ∃ fault, put key value store = (.error (.storage fault), store) ∧
        store.RefusesAfter 0 fault := by
  obtain ⟨parts, injected⟩ := store
  cases injected with
  | none => exact Or.inl ⟨_, rfl, rfl, nofun⟩
  | some injected =>
      obtain ⟨operation, left, fault⟩ := injected
      cases operation with
      | get | delete => exact Or.inl ⟨_, rfl, rfl, nofun⟩
      | put =>
          cases left with
          | zero => exact Or.inr ⟨fault, rfl, rfl⟩
          | succ left =>
              refine Or.inl ⟨_, rfl, rfl, ?_⟩
              rintro _ _ ⟨⟩
              rfl

/-! ### Records in front of a refused one -/

namespace PartMap

/-- Records change nothing but what is under their own keys. -/
theorem get?_insertRecords_of_ne {address : Address} {records : List (PartKind × Bytes)}
    {key : Bytes} (other : ∀ record ∈ records, key ≠ PartKey.toBytes ⟨address, record.1⟩)
    (parts : PartMap) : (parts.insertRecords address records).get? key = parts.get? key := by
  induction records generalizing parts with
  | nil => rfl
  | cons record rest ih =>
      obtain ⟨hfirst, hrest⟩ := List.forall_mem_cons.1 other
      change ((parts.insert _ record.2).insertRecords address rest).get? key = _
      rw [ih hrest, get?_insert, if_neg hfirst]

/-- The record of a kind is found among records of different kinds. -/
theorem recordOf?_of_mem {records : List (PartKind × Bytes)}
    (distinct : (records.map Prod.fst).Nodup) {kind : PartKind} {bytes : Bytes}
    (hmem : (kind, bytes) ∈ records) : recordOf? records kind = some bytes := by
  induction records with
  | nil => exact absurd hmem List.not_mem_nil
  | cons record rest ih =>
      obtain ⟨hnew, hrest⟩ := List.nodup_cons.1 distinct
      rw [recordOf?_cons]
      obtain hfirst | hmem := List.mem_cons.1 hmem
      · cases hfirst
        rw [if_pos rfl]
      · have hkind : record.1 ≠ kind := by
          rintro rfl
          exact hnew (List.mem_map.2 ⟨_, hmem, rfl⟩)
        rw [if_neg hkind, ih hrest hmem]

end PartMap

namespace Account

/-- **Records are refused at the one that the store does not accept, with those in front of it
stored.** -/
theorem putRecords_refused {address : Address} {records : List (PartKind × Bytes)}
    {store after : Store} {error : LedgerError}
    (h : putRecords address records store = (.error error, after)) :
    ∃ front refused back fault, records = front ++ refused :: back ∧ error = .storage fault ∧
      store.RefusesAfter front.length fault ∧
        after.parts = store.parts.insertRecords address front := by
  induction records generalizing store with
  | nil => cases h
  | cons record rest ih =>
      obtain ⟨kind, bytes⟩ := record
      rw [putRecords] at h
      obtain ⟨middle, hput, hparts, hcounted⟩ | ⟨fault, hput, hrefuses⟩ :=
        StoreM.put_counted ⟨address, kind⟩ bytes store
      · rw [bind_of_ok hput] at h
        obtain ⟨front, refused, back, fault, rfl, herror, hrefuses, hafter⟩ := ih h
        refine ⟨(kind, bytes) :: front, refused, back, fault, rfl, herror, ?_, ?_⟩
        · exact hcounted _ _ hrefuses
        · rw [hafter, hparts]
          rfl
      · rw [bind_of_error hput] at h
        cases h
        exact ⟨[], (kind, bytes), rest, fault, rfl, rfl, hrefuses, rfl⟩

/-! ### Accounts -/

/-- The kinds of the loaded parts, in the order in which the parts are stored. -/
def loadedKinds (account : Account) : List PartKind :=
  (account.coin.toList.map fun _ => PartKind.coin) ++
    (account.stake.toList.map fun _ => PartKind.stake) ++
      account.delegation.toList.map fun _ => PartKind.delegation

variable {account : Account} {store after : Store} {error : LedgerError}

/-- Every loaded part has one record, and the records come in the order of the parts. -/
theorem kinds_of_records {records : List (PartKind × Bytes)} (h : account.records = .ok records) :
    records.map Prod.fst = account.loadedKinds := by
  obtain ⟨address, height, revision, coin, stake, delegation⟩ := account
  obtain ⟨entries, hentries, hrecords⟩ := bind_eq_ok.1 h
  cases hrecords
  have hkinds : entries.map Prod.fst = stake.toList.map fun _ => PartKind.stake := by
    cases stake with
    | none =>
        cases hentries
        rfl
    | some part =>
        rw [Option.toList_some, List.mapM_cons] at hentries
        obtain ⟨entry, hentry, hnil⟩ := bind_eq_ok.1 hentries
        cases hbytes : part.toBytes revision with
        | error fault =>
            rw [hbytes] at hentry
            cases hentry
        | ok bytes =>
            rw [hbytes] at hentry
            cases hentry
            cases hnil
            rfl
  simp only [List.map_append, List.map_map, hkinds, loadedKinds, Function.comp_def]

/-- The key of a part of the account. -/
def key (account : Account) (kind : PartKind) : Bytes := PartKey.toBytes ⟨account.address, kind⟩

/-- **An account that is not saved either has slots where one pending unstake is known, and then the
store is as it was, or the store refused the record of one of its parts: then the parts in front of
that one are stored, and everything else in the store is as it was.** -/
theorem stored_before_refusal (h : account.save store = (.error error, after)) :
    (account.revision.hasMultipleUnstake = false ∧
      (∃ part, account.stake = some part ∧ part.slots ≠ []) ∧ after = store) ∨
      ∃ front refused back fault, account.loadedKinds = front ++ refused :: back ∧
        error = .storage fault ∧ store.RefusesAfter front.length fault ∧
          (∀ kind ∈ front, ∃ record, account.record? kind = some record ∧
            after.parts.get? (account.key kind) = some record) ∧
          ∀ key, (∀ kind ∈ front, key ≠ account.key kind) →
            after.parts.get? key = store.parts.get? key := by
  obtain ⟨records, hrecords, hdistinct, hfound, -⟩ | ⟨part, fault, hpart, hbytes, hrecords⟩ :=
    account.records_settled
  · rw [save, bind_of_ok (StoreM.ofExcept_eq hrecords)] at h
    obtain ⟨front, refused, back, fault, rfl, herror, hrefuses, hparts⟩ := putRecords_refused h
    have hkinds := kinds_of_records hrecords
    rw [List.map_append] at hdistinct hkinds
    refine Or.inr ⟨front.map Prod.fst, refused.1, back.map Prod.fst, fault, hkinds.symm, herror,
      ?_, ?_, ?_⟩
    · rwa [List.length_map]
    · intro kind hkind
      obtain ⟨⟨_, bytes⟩, hmem, rfl⟩ := List.mem_map.1 hkind
      refine ⟨bytes, ?_, ?_⟩
      · rw [← hfound]
        refine PartMap.recordOf?_of_mem ?_ (List.mem_append_left _ hmem)
        rwa [List.map_append]
      · rw [hparts, key, PartMap.get?_insertRecords (List.nodup_append.1 hdistinct).1, if_pos rfl,
          PartMap.recordOf?_of_mem (List.nodup_append.1 hdistinct).1 hmem, Option.some_or]
    · intro key hkey
      rw [hparts]
      refine PartMap.get?_insertRecords_of_ne ?_ _
      intro record hmem
      exact hkey record.1 (List.mem_map_of_mem hmem)
  · rw [save, bind_of_error (StoreM.ofExcept_eq hrecords)] at h
    cases h
    obtain ⟨hsingle, hslots, -⟩ := StakePart.toBytes_eq_error_iff.1 hbytes
    exact Or.inl ⟨hsingle, ⟨part, hpart, hslots⟩, rfl⟩

/-! ### A stake that is lost -/

/-- A general account with a balance of 100, of which it has just staked 60. -/
def justStaked : Account where
  address := ⟨.user, List.replicate Address.bodySize 3, rfl⟩
  height := 0
  revision := .multipleUnstake
  coin := some { CoinPart.empty with balance := 40 }
  stake := some { StakePart.empty with stake := 60 }
  delegation := none

/-- A store that holds the account as it was before it staked, and accepts one more value. -/
def nearlyFull : Store where
  parts := PartMap.empty.insert (justStaked.key .coin)
    (CoinPart.toBytes { CoinPart.empty with balance := 100 })
  fault := some { operation := .put, after := 1, error := .backend "disk full" }

theorem stored_before_refusal_justStaked :
    ∃ after, justStaked.save nearlyFull = (.error (.storage (.backend "disk full")), after) ∧
      after.parts.get? (justStaked.key .coin) = justStaked.record? .coin ∧
      after.parts.get? (justStaked.key .stake) = nearlyFull.parts.get? (justStaked.key .stake) := by
  have hsave : justStaked.save nearlyFull =
      (.error (.storage (.backend "disk full")), (justStaked.save nearlyFull).2) := rfl
  refine ⟨_, hsave, ?_⟩
  obtain ⟨hsingle, -⟩ | ⟨front, refused, back, fault, hkinds, -, hrefuses, hstored, hkept⟩ :=
    stored_before_refusal hsave
  · exact absurd hsingle (by decide)
  · -- one value is accepted, so the coin part alone is stored
    have hone : front.length = 1 := by
      have hfault := Option.some.inj hrefuses
      exact (congrArg Store.Fault.after hfault).symm
    obtain ⟨kind, rfl⟩ := List.length_eq_one_iff.1 hone
    cases hkinds
    obtain ⟨record, hrecord, hcoin⟩ := hstored .coin (by decide)
    exact ⟨hcoin.trans hrecord.symm, hkept _ (by decide)⟩

/-- **A save that fails may change the store**: what was staked has left the balance that is stored,
and no stake is. -/
theorem save_keeps_front :
    (justStaked.save nearlyFull).1 = .error (.storage (.backend "disk full")) ∧
      (justStaked.save nearlyFull).2.parts.get? (justStaked.key .coin) ≠
        nearlyFull.parts.get? (justStaked.key .coin) ∧
      nearlyFull.parts.read ⟨justStaked.address, .coin⟩ CoinPart.ofBytes .empty =
        .ok { CoinPart.empty with balance := 100 } ∧
      (justStaked.save nearlyFull).2.parts.read ⟨justStaked.address, .coin⟩ CoinPart.ofBytes
        .empty = .ok { CoinPart.empty with balance := 40 } ∧
      (justStaked.save nearlyFull).2.parts.read ⟨justStaked.address, .stake⟩ StakePart.ofBytes
        .empty = .ok .empty :=
  ⟨rfl, by decide, rfl, rfl, rfl⟩

end Account

end StakeLedger
