/-
**Saving again after a failure.**

A save that the store interrupts can be repeated until one goes well, and the store is then what it
would be had only that last save been made: a record that was stored by an earlier attempt is stored
once more under its key, and no attempt reaches a key that the last one does not.  All the while
each key of a loaded part holds what it held at first or its new record, and every other key what it
held at first.

The faults of an attempt are those of the store: some number of values is accepted and the next one
refused, with any error.  As an attempt ends with the first value that is refused, any way in which
the writes of an attempt can go is the way they go with one of these faults.

Main definitions:

* `StakeLedger.Account.savedParts` — what is stored after a number of attempts;
* `StakeLedger.Account.PassesBy` — the stores that an attempt passes by, one for each write;
* `StakeLedger.Account.OldOrNew` — **parts of which only records of the account are new**.

Main results:

* `StakeLedger.PartMap.insertRecords_congr` — records hide what was under their keys;
* `StakeLedger.Account.load_parts` — loading stores nothing, whether or not it goes well;
* `StakeLedger.Account.saved_at_last` — **a save that goes well makes up for all that failed**.
-/
import StakeLedger.Proofs.Interrupted

set_option autoImplicit false

namespace StakeLedger

open Results Stateful

/-! ### What records hide -/

namespace PartMap

/-- The parts under other keys than the given ones. -/
def apartFrom (parts : PartMap) (keys : List Bytes) : PartMap :=
  ⟨parts.entries.filter fun entry => entry.1 ∉ keys⟩

/-- The keys that the records of an address are stored under. -/
def recordKeys (address : Address) (records : List (PartKind × Bytes)) : List Bytes :=
  records.map fun record => PartKey.toBytes ⟨address, record.1⟩

variable {address : Address} {records : List (PartKind × Bytes)} {parts others : PartMap}
variable {keys : List Bytes} {key value : Bytes}

theorem apartFrom_nil (parts : PartMap) : parts.apartFrom [] = parts :=
  congrArg PartMap.mk (List.filter_eq_self.2 fun _ _ => decide_eq_true List.not_mem_nil)

/-- A value hides what was under its key. -/
theorem apartFrom_insert (parts : PartMap) (key value : Bytes) (keys : List Bytes) :
    (parts.insert key value).apartFrom keys =
      ⟨[(key, value)].filter (fun entry => entry.1 ∉ keys) ++
        (parts.apartFrom (key :: keys)).entries⟩ := by
  have hkept : (parts.erase key).apartFrom keys = parts.apartFrom (key :: keys) := by
    simp only [apartFrom, erase, List.filter_filter]
    congr 2
    funext entry
    by_cases hentry : entry.1 = key
    · simp [hentry]
    · simp [hentry]
  rw [← hkept, apartFrom, insert, List.filter_cons, List.filter_cons]
  split
  · rfl
  · rfl

theorem apartFrom_insert_of_mem (h : key ∈ keys) (value : Bytes) :
    (parts.insert key value).apartFrom keys = parts.apartFrom keys := by
  have hkeys : parts.apartFrom (key :: keys) = parts.apartFrom keys := by
    simp only [apartFrom]
    congr 2
    funext entry
    by_cases hentry : entry.1 = key
    · simp [hentry, h]
    · simp [hentry]
  rw [apartFrom_insert, hkeys]
  simp [h]

/-- **Records hide what was under their keys**: parts that differ under these keys alone do not
differ once the records are stored. -/
theorem insertRecords_congr
    (h : parts.apartFrom (recordKeys address records) =
      others.apartFrom (recordKeys address records)) :
    parts.insertRecords address records = others.insertRecords address records := by
  induction records generalizing parts others with
  | nil => rwa [recordKeys, List.map_nil, apartFrom_nil, apartFrom_nil] at h
  | cons record rest ih =>
      refine ih ?_
      rw [apartFrom_insert, apartFrom_insert]
      rw [recordKeys, List.map_cons] at h
      rw [recordKeys, h]

/-- Records change nothing apart from their keys. -/
theorem apartFrom_insertRecords (within : ∀ key ∈ recordKeys address records, key ∈ keys)
    (parts : PartMap) : (parts.insertRecords address records).apartFrom keys =
      parts.apartFrom keys := by
  induction records generalizing parts with
  | nil => rfl
  | cons record rest ih =>
      obtain ⟨hfirst, hrest⟩ := List.forall_mem_cons.1 within
      exact (ih hrest _).trans (apartFrom_insert_of_mem hfirst _)

theorem mem_of_recordOf? {kind : PartKind} {bytes : Bytes}
    (h : recordOf? records kind = some bytes) : (kind, bytes) ∈ records := by
  induction records with
  | nil => cases h
  | cons record rest ih =>
      rw [recordOf?_cons] at h
      split at h
      · next hkind =>
          cases hkind
          cases h
          exact List.mem_cons_self
      · exact List.mem_cons_of_mem _ (ih h)

end PartMap

/-! ### Storing the same records in other parts -/

/-- Whether a value is stored does not depend on what is stored. -/
theorem StoreM.put_of_put {key : PartKey} {value : Bytes} {parts after : PartMap}
    {fault left : Option Store.Fault} (h : put key value ⟨parts, fault⟩ = (.ok (), ⟨after, left⟩))
    (others : PartMap) :
    put key value ⟨others, fault⟩ = (.ok (), ⟨others.insert key.toBytes value, left⟩) := by
  cases fault with
  | none =>
      cases h
      rfl
  | some fault =>
      obtain ⟨operation, count, error⟩ := fault
      cases operation with
      | get | delete =>
          cases h
          rfl
      | put =>
          cases count with
          | zero => cases h
          | succ count =>
              cases h
              rfl

namespace Account

/-- Whether records are stored does not depend on what is stored. -/
theorem putRecords_of_putRecords {address : Address} {records : List (PartKind × Bytes)}
    {parts after : PartMap} {fault left : Option Store.Fault}
    (h : putRecords address records ⟨parts, fault⟩ = (.ok (), ⟨after, left⟩)) (others : PartMap) :
    putRecords address records ⟨others, fault⟩ =
      (.ok (), ⟨others.insertRecords address records, left⟩) := by
  induction records generalizing parts others fault with
  | nil =>
      cases h
      rfl
  | cons record rest ih =>
      obtain ⟨kind, bytes⟩ := record
      rw [putRecords] at h ⊢
      obtain ⟨⟨stored, between⟩, hput, -, -⟩ | ⟨error, hput, -⟩ :=
        StoreM.put_settled ⟨address, kind⟩ bytes ⟨parts, fault⟩
      · rw [bind_of_ok hput] at h
        rw [bind_of_ok (StoreM.put_of_put hput others)]
        exact ih h _
      · rw [bind_of_error hput] at h
        cases h

/-- Whichever way storing records goes, those in front of some point are stored. -/
theorem putRecords_parts (address : Address) (records : List (PartKind × Bytes)) (store : Store) :
    ∃ front back, records = front ++ back ∧
      (putRecords address records store).2.parts = store.parts.insertRecords address front := by
  obtain ⟨after, hput, hparts, -⟩ | ⟨error, after, hput, -⟩ :=
    putRecords_settled address records store
  · exact ⟨records, [], (List.append_nil records).symm, by rw [hput, hparts]⟩
  · obtain ⟨front, refused, back, -, hrecords, -, -, hparts⟩ := putRecords_refused hput
    exact ⟨front, refused :: back, hrecords, by rw [hput, hparts]⟩

/-! ### Attempts -/

/-- What is stored once the account was saved again and again, with the given fault injected into
the store in front of each attempt. -/
def savedParts (account : Account) (parts : PartMap) : List (Option Store.Fault) → PartMap
  | [] => parts
  | fault :: rest => account.savedParts (account.save ⟨parts, fault⟩).2.parts rest

/-- The stores that saving an account passes by: the store as it was, and after each attempt to
store a record the store as it then is. -/
def PassesBy (account : Account) (store moment : Store) : Prop :=
  moment = store ∨ ∃ front back, account.records = .ok (front ++ back) ∧
    moment = (putRecords account.address front store).2

/-- Parts that differ from `parts` in nothing but that keys of loaded parts may hold new records. -/
structure OldOrNew (account : Account) (parts now : PartMap) : Prop where
  own : ∀ kind ∈ account.loadedKinds, now.get? (account.key kind) = parts.get? (account.key kind) ∨
    ∃ record, account.record? kind = some record ∧ now.get? (account.key kind) = some record
  other : ∀ key, (∀ kind ∈ account.loadedKinds, key ≠ account.key kind) →
    now.get? key = parts.get? key

variable {account : Account} {parts now : PartMap} {records front back : List (PartKind × Bytes)}

/-- What a save leaves is the last store that it passes by. -/
theorem passesBy_save (account : Account) (store : Store) :
    account.PassesBy store (account.save store).2 := by
  cases hrecords : account.records with
  | error error => exact Or.inl (by rw [save_of_unrecorded hrecords])
  | ok records =>
      refine Or.inr ⟨records, [], ?_, ?_⟩
      · rwa [List.append_nil]
      · rw [save_of_records hrecords]

/-- A record of the account is the new record of a loaded part. -/
theorem record?_of_mem (h : account.records = .ok records) {kind : PartKind} {bytes : Bytes}
    (hmem : (kind, bytes) ∈ records) :
    kind ∈ account.loadedKinds ∧ account.record? kind = some bytes := by
  obtain ⟨hdistinct, hrecord⟩ := found_of_records h
  refine ⟨?_, ?_⟩
  · rw [← kinds_of_records h]
    exact List.mem_map_of_mem hmem
  · rw [← hrecord, PartMap.recordOf?_of_mem hdistinct hmem]

/-- Records of the account under their keys are new ones. -/
theorem OldOrNew.insertRecords (h : account.OldOrNew parts now)
    (hrecords : account.records = .ok (front ++ back)) :
    account.OldOrNew parts (now.insertRecords account.address front) := by
  have hdistinct : (front.map Prod.fst).Nodup := by
    have hall := (found_of_records hrecords).1
    rw [List.map_append] at hall
    exact (List.nodup_append.1 hall).1
  have hnew : ∀ record ∈ front,
      record.1 ∈ account.loadedKinds ∧ account.record? record.1 = some record.2 :=
    fun record hmem => record?_of_mem hrecords (List.mem_append_left _ hmem)
  constructor
  · intro kind hkind
    rw [key, PartMap.get?_insertRecords hdistinct, if_pos rfl]
    cases hfound : PartMap.recordOf? front kind with
    | none => exact h.own kind hkind
    | some bytes => exact Or.inr ⟨bytes, (hnew _ (PartMap.mem_of_recordOf? hfound)).2, rfl⟩
  · intro key hkey
    rw [PartMap.get?_insertRecords_of_ne fun record hmem => hkey _ (hnew record hmem).1]
    exact h.other key hkey

/-- An attempt passes by nothing but old and new. -/
theorem OldOrNew.passesBy (h : account.OldOrNew parts now) {fault : Option Store.Fault}
    {moment : Store} (passes : account.PassesBy ⟨now, fault⟩ moment) :
    account.OldOrNew parts moment.parts := by
  obtain rfl | ⟨front, back, hrecords, rfl⟩ := passes
  · exact h
  · obtain ⟨stored, refused, rfl, hparts⟩ := putRecords_parts account.address front ⟨now, fault⟩
    rw [List.append_assoc] at hrecords
    rw [hparts]
    exact h.insertRecords hrecords

theorem OldOrNew.savedParts (h : account.OldOrNew parts now)
    (faults : List (Option Store.Fault)) :
    account.OldOrNew parts (account.savedParts now faults) := by
  induction faults generalizing now with
  | nil => exact h
  | cons fault rest ih => exact ih (h.passesBy (account.passesBy_save ⟨now, fault⟩))

/-- No attempt changes anything apart from the keys of the records. -/
theorem apartFrom_savedParts (h : account.records = .ok records)
    (faults : List (Option Store.Fault)) (parts : PartMap) :
    (account.savedParts parts faults).apartFrom (PartMap.recordKeys account.address records) =
      parts.apartFrom (PartMap.recordKeys account.address records) := by
  induction faults generalizing parts with
  | nil => rfl
  | cons fault rest ih =>
      obtain ⟨front, back, rfl, hparts⟩ := putRecords_parts account.address records ⟨parts, fault⟩
      rw [← save_of_records h] at hparts
      rw [savedParts, ih, hparts]
      refine PartMap.apartFrom_insertRecords ?_ parts
      intro key hkey
      rw [PartMap.recordKeys, List.map_append]
      exact List.mem_append_left _ hkey

/-- A save that goes well does with the parts of earlier attempts what it does without these. -/
theorem save_of_savedParts {faults : List (Option Store.Fault)} {last : Option Store.Fault}
    {after : Store} (h : account.save ⟨account.savedParts parts faults, last⟩ = (.ok (), after)) :
    account.save ⟨parts, last⟩ = (.ok (), after) := by
  cases hrecords : account.records with
  | error error =>
      rw [save_of_unrecorded hrecords] at h
      cases h
  | ok records =>
      rw [save_of_records hrecords] at h ⊢
      -- the same fault is left, and the records hide in what the parts differed
      have hsame := putRecords_of_putRecords h (account.savedParts parts faults)
      rw [putRecords_of_putRecords h parts, ← h, hsame,
        PartMap.insertRecords_congr (apartFrom_savedParts hrecords faults parts)]

end Account

/-! ### Loading -/

/-- A computation that leaves the stored parts as they are, whether or not it goes well. -/
def StoreM.Reads {α : Type} (x : StoreM α) : Prop := ∀ store, (x store).2.parts = store.parts

namespace StoreM

variable {α β : Type}

theorem reads_pure (a : α) : Reads (pure a) := fun _ => rfl

theorem reads_ofExcept (result : Except LedgerError α) : Reads (ofExcept result) := fun _ => rfl

theorem Reads.bind {x : StoreM α} {f : α → StoreM β} (h : Reads x) (hf : ∀ a, Reads (f a)) :
    Reads (x >>= f) := by
  intro store
  have hparts := h store
  rcases hx : x store with ⟨result, after⟩
  rw [hx] at hparts
  cases result with
  | ok a => rw [bind_of_ok hx, hf a after, hparts]
  | error error => rw [bind_of_error hx, hparts]

theorem reads_get (key : PartKey) : Reads (get key) := by
  intro store
  obtain ⟨after, hcall, hparts, -⟩ | ⟨error, hcall, -⟩ := Store.call_settled .get store
  · simp only [get, Store.get, hcall, hparts]
  · simp only [get, Store.get, hcall]

end StoreM

namespace Account

theorem reads_loadPart {α : Type} (key : PartKey) (ofBytes : Bytes → Except LedgerError α)
    (fresh : α) : StoreM.Reads (loadPart key ofBytes fresh) := by
  refine (StoreM.reads_get key).bind fun found => ?_
  cases found with
  | none => exact StoreM.reads_pure fresh
  | some bytes => exact StoreM.reads_ofExcept _

theorem reads_loadWanted {α : Type} (wanted : Bool) (key : PartKey)
    (ofBytes : Bytes → Except LedgerError α) (fresh : α) :
    StoreM.Reads (loadWanted wanted key ofBytes fresh) := by
  cases wanted with
  | false => exact StoreM.reads_pure none
  | true => exact (reads_loadPart key ofBytes fresh).bind fun part => StoreM.reads_pure (some part)

/-- **Loading stores nothing, whether or not it goes well.** -/
theorem load_parts (address : Address) (wanted : List PartKind) (height : Nat)
    (revision : Revision) : StoreM.Reads (load address wanted height revision) := by
  refine (reads_loadWanted _ _ _ _).bind fun coin => ?_
  refine (reads_loadWanted _ _ _ _).bind fun stake => ?_
  refine (reads_loadWanted _ _ _ _).bind fun delegation => ?_
  exact StoreM.reads_ofExcept _

/-! ### Saving again -/

variable {account : Account} {records : List (PartKind × Bytes)}

/-- Every loaded part has a record once all records are formed. -/
theorem exists_record (h : account.records = .ok records) {kind : PartKind}
    (loaded : kind ∈ account.loadedKinds) : ∃ record, account.record? kind = some record := by
  rw [← kinds_of_records h] at loaded
  obtain ⟨⟨_, bytes⟩, hmem, rfl⟩ := List.mem_map.1 loaded
  exact ⟨bytes, (record?_of_mem h hmem).2⟩

/-- A stake part without a record keeps all records from being formed. -/
theorem records_of_stake_error {part : StakePart} {error : LedgerError}
    (loaded : account.stake = some part) (h : part.toBytes account.revision = .error error) :
    account.records = .error error := by
  obtain ⟨_, -, -, -, hrecorded⟩ | ⟨found, fault, hfound, hfault, hrecords⟩ :=
    account.records_settled
  · obtain ⟨bytes, hbytes⟩ := hrecorded part loaded
    cases h.symm.trans hbytes
  · cases loaded.symm.trans hfound
    cases h.symm.trans hfault
    exact hrecords

/-- The parts of other addresses, and those that are not loaded, are under keys of their own. -/
theorem toBytes_ne_key {part : PartKey}
    (foreign : part.address = account.address → part.kind ∉ account.loadedKinds)
    {kind : PartKind} (loaded : kind ∈ account.loadedKinds) : part.toBytes ≠ account.key kind := by
  intro heq
  cases PartKey.toBytes_inj.1 heq
  exact foreign rfl loaded

/-- A save goes well where the store accepts all values and the stake part has a record. -/
theorem exists_save (recorded : account.StakeRecorded) (parts : PartMap) :
    ∃ after, account.save ⟨parts, none⟩ = (.ok (), after) := by
  obtain ⟨after, hsave, -⟩ | ⟨part, error, hpart, hbytes, -⟩ | ⟨_, _, -, hfailing, -⟩ :=
    account.save_settled ⟨parts, none⟩
  · exact ⟨after, hsave⟩
  · obtain ⟨bytes, hrecorded⟩ := recorded part hpart
    cases hbytes.symm.trans hrecorded
  · cases hfailing

/-- **A save that goes well makes up for all that failed.**  However many attempts are made, with
whatever faults, one that goes well leaves the store as if it were the only one: every loaded part
has its record under its own key, and every other key what it held, those of other addresses and of
parts that are not loaded among them.  It does go well once the store accepts all values, unless the
stake part has no record, and then nothing is ever stored.  In front of each write and behind it the
keys of the loaded parts hold what they held or the new record, and every other key what it held.
Loading stores nothing. -/
theorem saved_at_last (account : Account) (parts : PartMap) :
    (∀ faults last after,
      account.save ⟨account.savedParts parts faults, last⟩ = (.ok (), after) →
        account.save ⟨parts, last⟩ = (.ok (), after) ∧
        (∀ kind ∈ account.loadedKinds, ∃ record, account.record? kind = some record ∧
          after.parts.get? (account.key kind) = some record) ∧
        ∀ key, (∀ kind ∈ account.loadedKinds, key ≠ account.key kind) →
          after.parts.get? key = parts.get? key) ∧
    (∀ part : PartKey, (part.address = account.address → part.kind ∉ account.loadedKinds) →
      ∀ kind ∈ account.loadedKinds, part.toBytes ≠ account.key kind) ∧
    (account.StakeRecorded → ∀ faults,
      ∃ after, account.save ⟨account.savedParts parts faults, none⟩ = (.ok (), after)) ∧
    (∀ faults fault moment, account.PassesBy ⟨account.savedParts parts faults, fault⟩ moment →
      account.OldOrNew parts moment.parts) ∧
    (∀ part error, account.stake = some part → part.toBytes account.revision = .error error →
      ∀ store, account.save store = (.error error, store)) ∧
    ∀ address wanted height revision store,
      (load address wanted height revision store).2.parts = store.parts := by
  have start : account.OldOrNew parts parts := ⟨fun _ _ => Or.inl rfl, fun _ _ => rfl⟩
  refine ⟨?_, fun _ foreign _ loaded => toBytes_ne_key foreign loaded,
    fun recorded faults => exists_save recorded _, ?_, ?_, load_parts⟩
  · intro faults last after h
    refine ⟨save_of_savedParts h, ?_, ?_⟩
    · intro kind loaded
      cases hrecords : account.records with
      | error error =>
          rw [save_of_unrecorded hrecords] at h
          cases h
      | ok records =>
          obtain ⟨record, hrecord⟩ := exists_record hrecords loaded
          refine ⟨record, hrecord, ?_⟩
          rw [key, (saved_of_save_ok h).get?_own, hrecord, Option.some_or]
    · have passes := account.passesBy_save ⟨account.savedParts parts faults, last⟩
      rw [h] at passes
      exact ((start.savedParts faults).passesBy passes).other
  · intro faults fault moment passes
    exact (start.savedParts faults).passesBy passes
  · intro part error loaded hbytes store
    exact save_of_unrecorded (records_of_stake_error loaded hbytes) store

/-- The account that has just staked, with a stake part that has no record. -/
def unrecorded : Account where
  address := justStaked.address
  height := 0
  revision := .staking
  coin := justStaked.coin
  stake := some { StakePart.empty with slots := [⟨60, 5⟩] }
  delegation := none

/-- The store is full when the account that has just staked is saved for the first time, and no
longer when it is saved again. -/
theorem saved_at_last_justStaked :
    (∃ after, justStaked.save
          ⟨justStaked.savedParts nearlyFull.parts [nearlyFull.fault], none⟩ = (.ok (), after) ∧
        justStaked.save ⟨nearlyFull.parts, none⟩ = (.ok (), after) ∧
        after.parts.get? (justStaked.key .stake) = justStaked.record? .stake ∧
        after.parts.get? (justStaked.key .delegation) = none) ∧
      justStaked.OldOrNew nearlyFull.parts
        (justStaked.savedParts nearlyFull.parts [nearlyFull.fault]) ∧
      (unrecorded.save nearlyFull).2 = nearlyFull := by
  obtain ⟨hlast, hforeign, hwell, hpasses, -, -⟩ := saved_at_last justStaked nearlyFull.parts
  obtain ⟨-, -, -, -, hunrecorded, -⟩ := saved_at_last unrecorded nearlyFull.parts
  have recorded : justStaked.StakeRecorded := by
    rintro _ ⟨⟩
    exact ⟨_, rfl⟩
  obtain ⟨_, hsave⟩ := hwell recorded [nearlyFull.fault]
  obtain ⟨hsame, hrecords, hother⟩ := hlast [nearlyFull.fault] none _ hsave
  obtain ⟨record, hrecord, hstored⟩ := hrecords .stake (by decide)
  refine ⟨⟨_, hsave, hsame, hstored.trans hrecord.symm, ?_⟩, ?_, ?_⟩
  · exact hother _ (hforeign ⟨justStaked.address, .delegation⟩ fun _ => by decide)
  · exact hpasses [] nearlyFull.fault _ (justStaked.passesBy_save nearlyFull)
  · rw [hunrecorded _ _ rfl rfl]

end Account

end StakeLedger
