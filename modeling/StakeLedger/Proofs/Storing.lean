/-
**What loading and saving do to the store.**

The keys of different parts are different, so that a record is read back under its own key and every
other key keeps its value.  Loading reads the wanted parts and leaves the store alone.  Saving goes
wrong in two ways only: a part has no record, and then nothing is stored, or the store refuses to
store one.

Main definitions:

* `StakeLedger.Store.failing`, `StakeLedger.Store.Readable` — what the injected fault makes fail,
  and stores that can be read;
* `StakeLedger.PartMap.read` — a stored part, or a fresh one;
* `StakeLedger.Account.Saved` — **what an account that was saved leaves in the store**.

Main results:

* `StakeLedger.PartKey.toBytes_inj` — different parts have different keys;
* `StakeLedger.Account.save_settled` — the three outcomes of saving;
* `StakeLedger.Account.load_apply` — loading, once the wanted parts can be read.
-/
import StakeLedger.Account.Storage
import StakeLedger.Proofs.Results

set_option autoImplicit false

namespace StakeLedger

open Results Stateful

/-! ### Keys -/

theorem PartKind.letters_inj {a b : PartKind} : a.letters = b.letters ↔ a = b := by
  cases a <;> cases b <;> decide

/-- **Different parts have different keys**, also where a key has no letters before its address. -/
theorem PartKey.toBytes_inj {a b : PartKey} : a.toBytes = b.toBytes ↔ a = b := by
  constructor
  · intro h
    -- all addresses take the same number of bytes, so the letters end at the same place
    have hsize : a.address.toBytes.length = b.address.toBytes.length := by
      rw [Address.length_toBytes, Address.length_toBytes]
    obtain ⟨hletters, haddress⟩ := List.append_inj' h hsize
    cases a
    cases b
    exact congr (congrArg PartKey.mk (Address.toBytes_inj.1 haddress))
      (PartKind.letters_inj.1 hletters)
  · rintro rfl
    rfl

/-! ### Calls of the store -/

namespace Store

/-- What the injected fault makes fail sooner or later, and with which error. -/
def failing (store : Store) : Option (Operation × StoreError) :=
  store.fault.map fun fault => (fault.operation, fault.error)

/-- A store in which no reading fails. -/
def Readable (store : Store) : Prop := ∀ error, store.failing ≠ some (.get, error)

variable {store : Store} {operation : Operation}

/-- A call goes well and leaves the parts as they are, or fails as the fault says. -/
theorem call_settled (operation : Operation) (store : Store) :
    (∃ after, store.call operation = .ok after ∧ after.parts = store.parts ∧
      after.failing = store.failing) ∨
        ∃ error, store.call operation = .error error ∧ store.failing = some (operation, error) := by
  rw [call, failing]
  cases hfault : store.fault with
  | none => exact Or.inl ⟨store, rfl, rfl, by rw [failing, hfault]⟩
  | some fault =>
      obtain ⟨kind, after, error⟩ := fault
      by_cases hkind : kind = operation
      · subst hkind
        cases after with
        | zero => exact Or.inr ⟨error, if_pos rfl, rfl⟩
        | succ after => exact Or.inl ⟨_, if_pos rfl, rfl, rfl⟩
      · exact Or.inl ⟨store, if_neg hkind, rfl, by rw [failing, hfault]⟩

/-- A call that the fault does not concern is not counted. -/
theorem call_of_working (h : ∀ error, store.failing ≠ some (operation, error)) :
    store.call operation = .ok store := by
  rw [call]
  cases hfault : store.fault with
  | none => rfl
  | some fault =>
      refine if_neg fun hoperation => h fault.error ?_
      rw [failing, hfault, ← hoperation]
      rfl

end Store

namespace StoreM

variable {α : Type} {store : Store}

theorem ofExcept_eq {found result : Except LedgerError α} (h : found = result) :
    ofExcept found store = (result, store) := by
  rw [ofExcept, h]

theorem get_apply (readable : store.Readable) (key : PartKey) :
    get key store = (.ok (store.parts.get? key.toBytes), store) := by
  have hcall : store.call .get = .ok store := Store.call_of_working readable
  simp only [get, Store.get, hcall, mapError_ok]

theorem put_settled (key : PartKey) (value : Bytes) (store : Store) :
    (∃ after, put key value store = (.ok (), after) ∧
      after.parts = store.parts.insert key.toBytes value ∧ after.failing = store.failing) ∨
        ∃ error, put key value store = (.error (.storage error), store) ∧
          store.failing = some (.put, error) := by
  obtain ⟨after, hcall, hparts, hfailing⟩ | ⟨error, hcall, hfailing⟩ :=
    Store.call_settled .put store
  · refine Or.inl ⟨{ after with parts := after.parts.insert key.toBytes value }, ?_, ?_, hfailing⟩
    · simp only [put, Store.put, hcall, mapError_ok]
    · rw [hparts]
  · refine Or.inr ⟨error, ?_, hfailing⟩
    simp only [put, Store.put, hcall]
    rfl

end StoreM

/-! ### Records under the keys of an address -/

namespace PartMap

/-- The parts with records stored under the keys of an address, one after the other. -/
def insertRecords (address : Address) (records : List (PartKind × Bytes)) (parts : PartMap) :
    PartMap :=
  records.foldl (fun parts record => parts.insert (PartKey.toBytes ⟨address, record.1⟩) record.2)
    parts

/-- The record of a kind. -/
def recordOf? (records : List (PartKind × Bytes)) (kind : PartKind) : Option Bytes :=
  (records.find? fun record => record.1 == kind).map Prod.snd

theorem recordOf?_cons (kind other : PartKind) (bytes : Bytes) (rest : List (PartKind × Bytes)) :
    recordOf? ((kind, bytes) :: rest) other =
      if kind = other then some bytes else recordOf? rest other := by
  unfold recordOf?
  split
  · next h => rw [List.find?_cons_of_pos (by simpa using h), Option.map_some]
  · next h => rw [List.find?_cons_of_neg (by simpa using h)]

/-- No record of a kind is found among records of other kinds. -/
theorem recordOf?_of_notMem {records : List (PartKind × Bytes)} {kind : PartKind}
    (h : kind ∉ records.map Prod.fst) : recordOf? records kind = none := by
  rw [recordOf?, Option.map_eq_none_iff, List.find?_eq_none]
  intro record hmem hsame
  exact h (List.mem_map.2 ⟨record, hmem, beq_iff_eq.1 hsame⟩)

/-- Records of different kinds are found under their own keys, and all other keys keep what they
held. -/
theorem get?_insertRecords {records : List (PartKind × Bytes)}
    (distinct : (records.map Prod.fst).Nodup) (address : Address) (parts : PartMap)
    (key : PartKey) :
    (parts.insertRecords address records).get? key.toBytes =
      if key.address = address then (recordOf? records key.kind).or (parts.get? key.toBytes)
      else parts.get? key.toBytes := by
  induction records generalizing parts with
  | nil =>
      change parts.get? key.toBytes = if _ then none.or _ else _
      rw [Option.none_or, ite_self]
  | cons record rest ih =>
      obtain ⟨kind, bytes⟩ := record
      obtain ⟨hnew, hrest⟩ := List.nodup_cons.1 distinct
      have hinsert := get?_insert parts (PartKey.toBytes ⟨address, kind⟩) bytes key.toBytes
      change ((parts.insert (PartKey.toBytes ⟨address, kind⟩) bytes).insertRecords
        address rest).get? key.toBytes = _
      rw [ih hrest, hinsert]
      by_cases haddress : key.address = address
      · rw [if_pos haddress, if_pos haddress, recordOf?_cons]
        by_cases hkind : kind = key.kind
        · -- no later record has this kind, so this one stays
          have hlater : recordOf? rest key.kind = none := recordOf?_of_notMem (hkind ▸ hnew)
          have hkey : key = ⟨address, kind⟩ := by
            cases key
            exact congr (congrArg PartKey.mk haddress) hkind.symm
          rw [if_pos (congrArg PartKey.toBytes hkey), hlater, if_pos hkind, Option.none_or,
            Option.some_or]
        · have hkey : ¬ key.toBytes = PartKey.toBytes ⟨address, kind⟩ := fun h =>
            hkind (congrArg PartKey.kind (PartKey.toBytes_inj.1 h)).symm
          rw [if_neg hkey, if_neg hkind]
      · have hkey : ¬ key.toBytes = PartKey.toBytes ⟨address, kind⟩ := fun h =>
          haddress (congrArg PartKey.address (PartKey.toBytes_inj.1 h))
        rw [if_neg haddress, if_neg haddress, if_neg hkey]

end PartMap

namespace Account

/-! ### Saving -/

/-- The record of the part of a kind, if the part is loaded and has one. -/
def record? (account : Account) : PartKind → Option Bytes
  | .coin => account.coin.map CoinPart.toBytes
  | .stake => account.stake.bind fun part => (part.toBytes account.revision).toOption
  | .delegation => account.delegation.map DelegationPart.toBytes

/-- The stake part has a record at the revision of the account, if it is loaded. -/
def StakeRecorded (account : Account) : Prop :=
  ∀ part, account.stake = some part → ∃ bytes, part.toBytes account.revision = .ok bytes

/-- What an account that was saved leaves in the store: its records under its own keys, and under
every other key what was there. -/
structure Saved (account : Account) (store after : Store) : Prop where
  failing_eq : after.failing = store.failing
  get?_eq : ∀ key : PartKey, after.parts.get? key.toBytes =
    if key.address = account.address then
      (account.record? key.kind).or (store.parts.get? key.toBytes)
    else store.parts.get? key.toBytes
  stake_recorded : account.StakeRecorded

variable {account : Account} {store after : Store}

/-- The loaded parts have records of different kinds, unless the stake part has none. -/
theorem records_settled (account : Account) :
    (∃ records, account.records = .ok records ∧ (records.map Prod.fst).Nodup ∧
      (∀ kind, PartMap.recordOf? records kind = account.record? kind) ∧ account.StakeRecorded) ∨
      ∃ part error, account.stake = some part ∧ part.toBytes account.revision = .error error ∧
        account.records = .error error := by
  obtain ⟨address, height, revision, coin, stake, delegation⟩ := account
  cases stake with
  | none =>
      refine Or.inl ⟨_, rfl, ?_, ?_, nofun⟩
      · cases coin <;> cases delegation <;> simp
      · intro kind
        cases coin <;> cases delegation <;> cases kind <;> rfl
  | some part =>
      cases hbytes : part.toBytes revision with
      | error error =>
          refine Or.inr ⟨part, error, rfl, hbytes, ?_⟩
          simp only [records, Option.toList_some, List.mapM_cons, hbytes]
          rfl
      | ok bytes =>
          have hrecords : records ⟨address, height, revision, coin, some part, delegation⟩ =
              .ok ((coin.toList.map fun part => (PartKind.coin, part.toBytes)) ++
                [(PartKind.stake, bytes)] ++
                  delegation.toList.map fun part => (PartKind.delegation, part.toBytes)) := by
            simp only [records, Option.toList_some, List.mapM_cons, hbytes]
            rfl
          refine Or.inl ⟨_, hrecords, ?_, ?_, ?_⟩
          · cases coin <;> cases delegation <;> simp
          · intro kind
            have hstake : (part.toBytes revision).toOption = some bytes := by rw [hbytes]; rfl
            cases coin <;> cases delegation <;> cases kind <;> first | rfl | exact hstake.symm
          · rintro _ ⟨⟩
            exact ⟨bytes, hbytes⟩

/-- The records of the loaded parts, once all of them are formed. -/
theorem found_of_records {records : List (PartKind × Bytes)} (h : account.records = .ok records) :
    (records.map Prod.fst).Nodup ∧
      ∀ kind, PartMap.recordOf? records kind = account.record? kind := by
  obtain ⟨found, hfound, hdistinct, hrecord, -⟩ | ⟨_, _, -, -, hfound⟩ := account.records_settled
  · cases h.symm.trans hfound
    exact ⟨hdistinct, hrecord⟩
  · cases h.symm.trans hfound

/-- Records that are formed are stored one after the other. -/
theorem save_of_records {records : List (PartKind × Bytes)} (h : account.records = .ok records)
    (store : Store) : account.save store = putRecords account.address records store :=
  bind_of_ok (StoreM.ofExcept_eq h) _

/-- Nothing is stored unless all records are formed. -/
theorem save_of_unrecorded {error : LedgerError} (h : account.records = .error error)
    (store : Store) : account.save store = (.error error, store) :=
  bind_of_error (StoreM.ofExcept_eq h) _

/-- Storing records goes well, or fails as the fault of the store says. -/
theorem putRecords_settled (address : Address) (records : List (PartKind × Bytes))
    (store : Store) :
    (∃ after, putRecords address records store = (.ok (), after) ∧
      after.parts = store.parts.insertRecords address records ∧
        after.failing = store.failing) ∨
      ∃ error after, putRecords address records store = (.error (.storage error), after) ∧
        store.failing = some (.put, error) := by
  induction records generalizing store with
  | nil => exact Or.inl ⟨store, rfl, rfl, rfl⟩
  | cons record rest ih =>
      obtain ⟨kind, bytes⟩ := record
      obtain ⟨middle, hput, hparts, hfailing⟩ | ⟨error, hput, hfailing⟩ :=
        StoreM.put_settled ⟨address, kind⟩ bytes store
      · rw [putRecords, bind_of_ok hput]
        obtain ⟨after, hrest, hafter, hsame⟩ | ⟨error, after, hrest, hfails⟩ := ih middle
        · refine Or.inl ⟨after, hrest, ?_, hsame.trans hfailing⟩
          rw [hafter, hparts]
          rfl
        · exact Or.inr ⟨error, after, hrest, hfailing ▸ hfails⟩
      · exact Or.inr ⟨error, store, bind_of_error hput _, hfailing⟩

/-- **Saving goes well, or is refused before anything is stored because the stake part has no
record, or fails as the fault of the store says.** -/
theorem save_settled (account : Account) (store : Store) :
    (∃ after, account.save store = (.ok (), after) ∧ account.Saved store after) ∨
      (∃ part error, account.stake = some part ∧ part.toBytes account.revision = .error error ∧
        account.save store = (.error error, store)) ∨
        ∃ error after, account.save store = (.error (.storage error), after) ∧
          store.failing = some (.put, error) ∧ account.StakeRecorded := by
  obtain ⟨records, hrecords, hdistinct, hfound, hstake⟩ | ⟨part, error, hpart, hbytes, hrecords⟩ :=
    account.records_settled
  · rw [save_of_records hrecords]
    obtain ⟨after, hput, hparts, hfailing⟩ | ⟨error, after, hput, hfailing⟩ :=
      putRecords_settled account.address records store
    · refine Or.inl ⟨after, hput, hfailing, ?_, hstake⟩
      intro key
      rw [hparts, PartMap.get?_insertRecords hdistinct, hfound]
    · exact Or.inr (Or.inr ⟨error, after, hput, hfailing, hstake⟩)
  · exact Or.inr (Or.inl
      ⟨part, error, hpart, hbytes, save_of_unrecorded hrecords store⟩)

theorem saved_of_save_ok (h : account.save store = (.ok (), after)) :
    account.Saved store after := by
  obtain ⟨_, hsave, hsaved⟩ | ⟨_, _, -, -, hsave⟩ | ⟨_, _, hsave, -⟩ := account.save_settled store
  · rw [hsave] at h
    cases h
    exact hsaved
  · rw [hsave] at h
    cases h
  · rw [hsave] at h
    cases h

theorem Saved.readable (h : account.Saved store after) (readable : store.Readable) :
    after.Readable := by
  intro error
  rw [h.failing_eq]
  exact readable error

/-- The records of the saved account are found under its own keys. -/
theorem Saved.get?_own (h : account.Saved store after) (kind : PartKind) :
    after.parts.get? (PartKey.toBytes ⟨account.address, kind⟩) =
      (account.record? kind).or (store.parts.get? (PartKey.toBytes ⟨account.address, kind⟩)) := by
  rw [h.get?_eq, if_pos rfl]

end Account

/-! ### Loading -/

/-- The stored part under `key`, or `fresh` if none is stored. -/
def PartMap.read {α : Type} (parts : PartMap) (key : PartKey)
    (ofBytes : Bytes → Except LedgerError α) (fresh : α) : Except LedgerError α :=
  match parts.get? key.toBytes with
  | some bytes => ofBytes bytes
  | none => .ok fresh

/-- The part under `key` if it is wanted. -/
def PartMap.readWanted {α : Type} (parts : PartMap) (wanted : Bool) (key : PartKey)
    (ofBytes : Bytes → Except LedgerError α) (fresh : α) : Except LedgerError (Option α) :=
  if wanted then (parts.read key ofBytes fresh).map some else .ok none

theorem PartMap.readWanted_eq {α : Type} {parts : PartMap} {key : PartKey}
    {ofBytes : Bytes → Except LedgerError α} {fresh part : α}
    (h : parts.read key ofBytes fresh = .ok part) (wanted : Bool) :
    parts.readWanted wanted key ofBytes fresh = .ok (if wanted then some part else none) := by
  rw [readWanted, h]
  cases wanted with
  | false => rfl
  | true => rfl

namespace Account

variable {α : Type} {store : Store} {key : PartKey} {ofBytes : Bytes → Except LedgerError α}
variable {fresh : α}

theorem loadPart_apply (readable : store.Readable) :
    loadPart key ofBytes fresh store = (store.parts.read key ofBytes fresh, store) := by
  rw [loadPart, bind_of_ok (StoreM.get_apply readable key), PartMap.read]
  cases store.parts.get? key.toBytes with
  | some bytes => rfl
  | none => rfl

theorem loadWanted_apply (readable : store.Readable) {wanted : Bool} {part : Option α}
    (h : store.parts.readWanted wanted key ofBytes fresh = .ok part) :
    loadWanted wanted key ofBytes fresh store = (.ok part, store) := by
  rw [PartMap.readWanted] at h
  cases wanted with
  | false =>
      cases h
      rfl
  | true =>
      have hpart := @loadPart_apply α store key ofBytes fresh readable
      cases hread : store.parts.read key ofBytes fresh with
      | error error =>
          rw [hread] at h
          cases h
      | ok found =>
          rw [hread] at h hpart
          cases h
          exact bind_of_ok hpart _

/-- **Loading reads the wanted parts, the coin part also for the stake part, and releases what is
unlocked; the store stays as it is.** -/
theorem load_apply (readable : store.Readable) {address : Address} {wanted : List PartKind}
    {coin : Option CoinPart} {stake : Option StakePart} {delegation : Option DelegationPart}
    (hcoin : store.parts.readWanted (wanted.contains .coin || wanted.contains .stake)
      ⟨address, .coin⟩ CoinPart.ofBytes .empty = .ok coin)
    (hstake : store.parts.readWanted (wanted.contains .stake) ⟨address, .stake⟩
      StakePart.ofBytes .empty = .ok stake)
    (hdelegation : store.parts.readWanted (wanted.contains .delegation) ⟨address, .delegation⟩
      DelegationPart.ofBytes .empty = .ok delegation) (height : Nat) (revision : Revision) :
    load address wanted height revision store =
      (({ address, height, revision, coin, stake, delegation } : Account).apply
        (.normalize revision), store) := by
  rw [load, bind_of_ok (loadWanted_apply readable hcoin),
    bind_of_ok (loadWanted_apply readable hstake),
    bind_of_ok (loadWanted_apply readable hdelegation), StoreM.ofExcept]

end Account

end StakeLedger
