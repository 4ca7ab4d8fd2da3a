/-
**The store of account parts.**

The store maps keys to byte strings that it does not interpret.  A fault can be injected into one of
its operations: a number of further calls of that operation still succeed, and every later one fails
and leaves the parts as they are.

Main definitions:

* `StakeLedger.PartMap` — the stored parts;
* `StakeLedger.Store` — the parts and the injected fault;
* `StakeLedger.Store.get`, `StakeLedger.Store.put`, `StakeLedger.Store.delete`,
  `StakeLedger.Store.contains` — the operations, which may fail.

Main results:

* `StakeLedger.PartMap.get?_insert`, `StakeLedger.PartMap.get?_erase` — the parts behave as a map.
-/
import StakeLedger.Part

set_option autoImplicit false

namespace StakeLedger

/-! ### The parts -/

/-- Stored parts: keys with their values, each key at most once. -/
structure PartMap where
  entries : List (Bytes × Bytes)
  deriving DecidableEq, Repr

namespace PartMap

/-- No parts. -/
def empty : PartMap := ⟨[]⟩

/-- The value under a key. -/
def get? (parts : PartMap) (key : Bytes) : Option Bytes :=
  (parts.entries.find? fun entry => entry.1 == key).map Prod.snd

/-- The parts without the one under `key`. -/
def erase (parts : PartMap) (key : Bytes) : PartMap :=
  ⟨parts.entries.filter fun entry => entry.1 != key⟩

/-- The parts with `value` under `key`. -/
def insert (parts : PartMap) (key value : Bytes) : PartMap :=
  ⟨(key, value) :: (parts.erase key).entries⟩

/-- How many parts are stored. -/
def size (parts : PartMap) : Nat := parts.entries.length

@[simp] theorem get?_empty (key : Bytes) : empty.get? key = none := rfl

theorem get?_erase (parts : PartMap) (key other : Bytes) :
    (parts.erase key).get? other = if other = key then none else parts.get? other := by
  simp only [get?, erase, List.find?_filter]
  split
  · next h =>
      subst h
      simp
  · next h =>
      congr 2
      funext entry
      by_cases he : entry.1 = other
      · simp [he, h]
      · simp [he]

theorem get?_insert (parts : PartMap) (key value other : Bytes) :
    (parts.insert key value).get? other =
      if other = key then some value else parts.get? other := by
  have h := get?_erase parts key other
  by_cases he : other = key
  · subst he
    simp [get?, insert]
  · have hne : (key == other) = false := by simpa using fun hk => he hk.symm
    simp only [if_neg he] at h ⊢
    rw [← h]
    simp [get?, insert, hne]

end PartMap

/-! ### Faults -/

/-- Why an operation of the store failed. -/
inductive StoreError
  | notFound (text : String)
  | backend (text : String)
  | corruption (text : String)
  deriving DecidableEq, Repr

/-- The wording of an error. -/
def StoreError.message : StoreError → String
  | .notFound text => s!"key not found: {text}"
  | .backend text => s!"storage backend error: {text}"
  | .corruption text => s!"database is corrupted: {text}"

/-- An operation into which a fault can be injected. -/
inductive Store.Operation
  | get
  | put
  | delete
  deriving DecidableEq, Repr

/-- A fault: `operation` succeeds `after` more times and then fails with `error`. -/
structure Store.Fault where
  operation : Store.Operation
  after : Nat
  error : StoreError
  deriving DecidableEq, Repr

/-! ### The store -/

/-- The stored parts and the injected fault. -/
structure Store where
  parts : PartMap
  fault : Option Store.Fault
  deriving DecidableEq, Repr

namespace Store

/-- A store without parts and without a fault. -/
def empty : Store := { parts := .empty, fault := none }

/-- Counts a call of `operation` against the fault. -/
def call (operation : Operation) (store : Store) : Except StoreError Store :=
  match store.fault with
  | none => .ok store
  | some fault =>
      if fault.operation = operation then
        match fault.after with
        | 0 => .error fault.error
        | after + 1 => .ok { store with fault := some { fault with after } }
      else .ok store

/-- The stored value of a part. -/
def get (key : PartKey) (store : Store) : Except StoreError (Option Bytes) × Store :=
  match store.call .get with
  | .error error => (.error error, store)
  | .ok store => (.ok (store.parts.get? key.toBytes), store)

/-- Stores a value for a part. -/
def put (key : PartKey) (value : Bytes) (store : Store) : Except StoreError Unit × Store :=
  match store.call .put with
  | .error error => (.error error, store)
  | .ok store => (.ok (), { store with parts := store.parts.insert key.toBytes value })

/-- Removes the value of a part, if there is one. -/
def delete (key : PartKey) (store : Store) : Except StoreError Unit × Store :=
  match store.call .delete with
  | .error error => (.error error, store)
  | .ok store => (.ok (), { store with parts := store.parts.erase key.toBytes })

/-- Whether a part has a value. -/
def contains (key : PartKey) (store : Store) : Except StoreError Bool × Store :=
  let (value, store) := store.get key
  (value.map Option.isSome, store)

end Store

end StakeLedger
