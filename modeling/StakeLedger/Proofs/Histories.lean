/-
**What the store replies, told from the requests alone.**

A store that starts empty and meets no fault remembers of all that it was asked to do only the last
value that was put under each key, unless the key was deleted since.  The requests for one part are
not felt under the key of any other part, although all parts share one space of keys and the keys of
coin parts have no letters in front: different parts have different keys.

Main definitions:

* `StakeLedger.Store.Request`, `StakeLedger.Store.Reply`, `StakeLedger.Store.handleAll` — requests
  to the store, what it replies, and what it does with a sequence of requests;
* `StakeLedger.Store.LastPut` — **the value that requests left under a key**;
* `StakeLedger.Store.Answers` — the replies that a history of requests allows;
* `StakeLedger.PartMap.Keyed` — parts that are stored under the keys of the parts listed;
* `StakeLedger.Store.Tracks` — a store that holds what its history tells.

Main results:

* `StakeLedger.PartMap.Keyed.mem_iff`, `StakeLedger.PartMap.Keyed.size_eq` — what is present, and
  how much of it;
* `StakeLedger.Store.lastPut_append_singleton` — what one more request changes;
* `StakeLedger.Store.get?_handleAll_of_other` — other keys keep their values;
* `StakeLedger.Store.Tracks.handleAll` — the store holds what its history tells;
* `StakeLedger.Store.history_tells` — **the store is a map from addresses and kinds**.
-/
import StakeLedger.Proofs.Storing

set_option autoImplicit false

namespace StakeLedger

/-! ### Parts under the keys of parts -/

namespace PartMap

variable {parts : PartMap} {keys : List PartKey}

/-- A key has a value exactly if it stands in an entry. -/
theorem isSome_get?_iff {key : Bytes} :
    (parts.get? key).isSome ↔ key ∈ parts.entries.map Prod.fst := by
  rw [get?, Option.isSome_map, List.find?_isSome, List.mem_map]
  simp only [beq_iff_eq]

/-- The parts are stored under the keys of the parts listed, each of them once. -/
structure Keyed (parts : PartMap) (keys : List PartKey) : Prop where
  nodup : keys.Nodup
  keys_eq : parts.entries.map Prod.fst = keys.map PartKey.toBytes

theorem Keyed.empty : Keyed .empty [] := ⟨List.nodup_nil, rfl⟩

/-- As many parts are stored as are listed. -/
theorem Keyed.size_eq (h : parts.Keyed keys) : parts.size = keys.length := by
  have hlength := congrArg List.length h.keys_eq
  simpa [size] using hlength

/-- The parts listed are those that have a value. -/
theorem Keyed.mem_iff (h : parts.Keyed keys) (key : PartKey) :
    key ∈ keys ↔ (parts.get? key.toBytes).isSome := by
  rw [isSome_get?_iff, h.keys_eq]
  constructor
  · intro hkey
    exact List.mem_map_of_mem hkey
  · intro hkey
    obtain ⟨other, hother, hbytes⟩ := List.mem_map.1 hkey
    rwa [← PartKey.toBytes_inj.1 hbytes]

/-- Removing a part takes it off the list. -/
theorem Keyed.erase (h : parts.Keyed keys) (key : PartKey) :
    (parts.erase key.toBytes).Keyed (keys.filter (· ≠ key)) := by
  refine ⟨h.nodup.filter _, ?_⟩
  have hentries : (parts.erase key.toBytes).entries.map Prod.fst =
      (parts.entries.map Prod.fst).filter (· != key.toBytes) := by
    rw [PartMap.erase, List.filter_map]
    rfl
  rw [hentries, h.keys_eq, List.filter_map]
  congr 2
  funext other
  by_cases hother : other = key
  · simp [hother]
  · have hbytes : other.toBytes ≠ key.toBytes := fun h => hother (PartKey.toBytes_inj.1 h)
    simp [hother, hbytes]

/-- A part that is stored stands on the list once, whether or not it stood there. -/
theorem Keyed.insert (h : parts.Keyed keys) (key : PartKey) (value : Bytes) :
    (parts.insert key.toBytes value).Keyed (key :: keys.filter (· ≠ key)) := by
  obtain ⟨hnodup, hkeys⟩ := h.erase key
  refine ⟨List.nodup_cons.2 ⟨by simp, hnodup⟩, ?_⟩
  rw [PartMap.insert, List.map_cons, hkeys, List.map_cons]

end PartMap

namespace Store

/-! ### Requests and replies -/

/-- A request to the store. -/
inductive Request
  | get (key : PartKey)
  | put (key : PartKey) (value : Bytes)
  | delete (key : PartKey)
  | contains (key : PartKey)
  deriving DecidableEq, Repr

/-- What the store replies to a request when all goes well. -/
inductive Reply
  | value (found : Option Bytes)
  | done
  | present (found : Bool)
  deriving DecidableEq, Repr

/-- The part that a request stores or removes; a request that only reads has none. -/
def Request.written? : Request → Option PartKey
  | .get _ => none
  | .put key _ => some key
  | .delete key => some key
  | .contains _ => none

/-- Carries out a request. -/
def handle (request : Request) (store : Store) : Except StoreError Reply × Store :=
  match request with
  | .get key =>
      let (found, after) := store.get key
      (found.map .value, after)
  | .put key value =>
      let (result, after) := store.put key value
      (result.map fun _ => .done, after)
  | .delete key =>
      let (result, after) := store.delete key
      (result.map fun _ => .done, after)
  | .contains key =>
      let (found, after) := store.contains key
      (found.map .present, after)

/-- Carries out requests one after the other: what is replied to each, and the store that they
leave behind. -/
def handleAll : List Request → Store → List (Except StoreError Reply) × Store
  | [], store => ([], store)
  | request :: rest, store =>
      let (reply, between) := store.handle request
      let (replies, after) := between.handleAll rest
      (reply :: replies, after)

variable {history requests : List Request} {request : Request} {key : PartKey} {value : Bytes}
variable {store : Store}

theorem handleAll_cons (request : Request) (rest : List Request) (store : Store) :
    store.handleAll (request :: rest) =
      ((store.handle request).1 :: ((store.handle request).2.handleAll rest).1,
        ((store.handle request).2.handleAll rest).2) := rfl

theorem handleAll_append (requests later : List Request) (store : Store) :
    (store.handleAll (requests ++ later)).2 =
      ((store.handleAll requests).2.handleAll later).2 := by
  induction requests generalizing store with
  | nil => rfl
  | cons request rest ih => exact ih (store.handle request).2

/-- A request is replied to from the store that the requests before it left. -/
theorem getElem?_handleAll (before : List Request) (request : Request) (after : List Request)
    (store : Store) :
    (store.handleAll (before ++ request :: after)).1[before.length]? =
      some ((store.handleAll before).2.handle request).1 := by
  induction before generalizing store with
  | nil => rfl
  | cons first rest ih =>
      rw [List.cons_append, handleAll_cons, List.length_cons, List.getElem?_cons_succ, ih]
      rfl

/-! ### What requests leave behind -/

/-- **The last request that stores or removes a part stores this value.** -/
def LastPut (history : List Request) (key : PartKey) (value : Bytes) : Prop :=
  ∃ before after, history = before ++ .put key value :: after ∧
    ∀ request ∈ after, request.written? ≠ some key

/-- The replies that are right after a history of requests. -/
inductive Answers (history : List Request) : Request → Reply → Prop
  | get {key : PartKey} {found : Option Bytes}
      (told : ∀ value, found = some value ↔ LastPut history key value) :
      Answers history (.get key) (.value found)
  | put {key : PartKey} {value : Bytes} : Answers history (.put key value) .done
  | delete {key : PartKey} : Answers history (.delete key) .done
  | contains {key : PartKey} {found : Bool}
      (told : found = true ↔ ∃ value, LastPut history key value) :
      Answers history (.contains key) (.present found)

theorem not_lastPut_nil : ¬ LastPut [] key value := by
  rintro ⟨before, after, h, -⟩
  simp at h

/-- One more request puts the value, or leaves the part alone for which it was put before. -/
theorem lastPut_append_singleton : LastPut (history ++ [request]) key value ↔
    request = .put key value ∨ (request.written? ≠ some key ∧ LastPut history key value) := by
  constructor
  · rintro ⟨before, after, h, hafter⟩
    -- the new request is the one that puts the value, or one of those behind it
    rcases List.eq_nil_or_concat after with rfl | ⟨rest, last, rfl⟩
    · obtain ⟨-, hlast⟩ := List.append_inj' h rfl
      exact Or.inl (List.singleton_inj.1 hlast)
    · have hsplit : history ++ [request] = (before ++ .put key value :: rest) ++ [last] := by
        simpa using h
      obtain ⟨hhistory, hlast⟩ := List.append_inj' hsplit rfl
      obtain rfl := List.singleton_inj.1 hlast
      refine Or.inr ⟨hafter _ (by simp), before, rest, hhistory, ?_⟩
      intro later hlater
      exact hafter later (by simp [hlater])
  · rintro (rfl | ⟨hother, before, after, rfl, hafter⟩)
    · exact ⟨history, [], rfl, by simp⟩
    · refine ⟨before, after ++ [request], by simp, ?_⟩
      intro later hlater
      rcases List.mem_append.1 hlater with hlater | hlater
      · exact hafter later hlater
      · rwa [List.mem_singleton.1 hlater]

/-! ### Other keys keep their values -/

/-- A call that goes well or fails leaves the parts as they are. -/
theorem parts_of_call {operation : Operation} {after : Store}
    (h : store.call operation = .ok after) :
    after.parts = store.parts := by
  obtain ⟨_, hcall, hparts, -⟩ | ⟨_, hcall, -⟩ := store.call_settled operation
  · cases h.symm.trans hcall
    exact hparts
  · cases h.symm.trans hcall

/-- A request leaves alone what is stored under the keys of all parts that it does not write, also
if it fails. -/
theorem get?_handle_of_other (h : request.written? ≠ some key) (store : Store) :
    (store.handle request).2.parts.get? key.toBytes = store.parts.get? key.toBytes := by
  cases request with
  | get other =>
      simp only [handle, Store.get]
      cases hcall : store.call .get with
      | error error => rfl
      | ok after => rw [parts_of_call hcall]
  | contains other =>
      simp only [handle, Store.contains, Store.get]
      cases hcall : store.call .get with
      | error error => rfl
      | ok after => rw [parts_of_call hcall]
  | put other value =>
      have hkey : ¬ key.toBytes = other.toBytes := fun hbytes =>
        h (congrArg some (PartKey.toBytes_inj.1 hbytes).symm)
      simp only [handle, Store.put]
      cases hcall : store.call .put with
      | error error => rfl
      | ok after => rw [PartMap.get?_insert, if_neg hkey, parts_of_call hcall]
  | delete other =>
      have hkey : ¬ key.toBytes = other.toBytes := fun hbytes =>
        h (congrArg some (PartKey.toBytes_inj.1 hbytes).symm)
      simp only [handle, Store.delete]
      cases hcall : store.call .delete with
      | error error => rfl
      | ok after => rw [PartMap.get?_erase, if_neg hkey, parts_of_call hcall]

/-- **Other keys keep their values** over any sequence of requests. -/
theorem get?_handleAll_of_other (h : ∀ request ∈ requests, request.written? ≠ some key)
    (store : Store) :
    (store.handleAll requests).2.parts.get? key.toBytes = store.parts.get? key.toBytes := by
  induction requests generalizing store with
  | nil => rfl
  | cons request rest ih =>
      obtain ⟨hfirst, hrest⟩ := List.forall_mem_cons.1 h
      rw [handleAll_cons, ih hrest, get?_handle_of_other hfirst]

/-! ### A store that meets no fault -/

/-- A store without a fault holds under the key of each part what its history tells. -/
structure Tracks (store : Store) (history : List Request) : Prop where
  fault_eq : store.fault = none
  get?_iff : ∀ key value, store.parts.get? key.toBytes = some value ↔ LastPut history key value
  keyed : ∃ keys, store.parts.Keyed keys

theorem tracks_empty : empty.Tracks [] := by
  refine ⟨rfl, ?_, [], PartMap.Keyed.empty⟩
  intro key value
  exact ⟨nofun, fun h => absurd h not_lastPut_nil⟩

/-- What is stored keeps in step with the history, one request at a time. -/
theorem Tracks.handle (h : store.Tracks history) (request : Request) :
    (store.handle request).2.Tracks (history ++ [request]) := by
  obtain ⟨parts, fault⟩ := store
  obtain ⟨hfault, htold, keys, hkeys⟩ := h
  obtain rfl : fault = none := hfault
  have hkept : ∀ key value, request.written? ≠ some key →
      ((Store.handle request ⟨parts, none⟩).2.parts.get? key.toBytes = some value ↔
        LastPut (history ++ [request]) key value) := by
    intro key value hother
    rw [get?_handle_of_other hother, htold, lastPut_append_singleton]
    constructor
    · intro hbefore
      exact Or.inr ⟨hother, hbefore⟩
    · rintro (rfl | ⟨-, hbefore⟩)
      · exact absurd rfl hother
      · exact hbefore
  cases request with
  | get other => exact ⟨rfl, fun key value => hkept key value nofun, keys, hkeys⟩
  | contains other => exact ⟨rfl, fun key value => hkept key value nofun, keys, hkeys⟩
  | put other stored =>
      refine ⟨rfl, ?_, _, hkeys.insert other stored⟩
      intro key value
      by_cases hkey : other = key
      · subst hkey
        rw [lastPut_append_singleton]
        simp [Store.handle, Store.put, call, PartMap.get?_insert, Request.written?]
      · exact hkept key value fun hwritten => hkey (Option.some.inj hwritten)
  | delete other =>
      refine ⟨rfl, ?_, _, hkeys.erase other⟩
      intro key value
      by_cases hkey : other = key
      · subst hkey
        rw [lastPut_append_singleton]
        simp [Store.handle, Store.delete, call, PartMap.get?_erase, Request.written?]
      · exact hkept key value fun hwritten => hkey (Option.some.inj hwritten)

/-- The store holds what its history tells. -/
theorem Tracks.handleAll (h : store.Tracks history) (requests : List Request) :
    (store.handleAll requests).2.Tracks (history ++ requests) := by
  induction requests generalizing store history with
  | nil => rwa [List.append_nil]
  | cons request rest ih =>
      have hrest := ih (h.handle request)
      rwa [List.append_assoc, List.singleton_append] at hrest

/-- A store that holds what its history tells replies accordingly. -/
theorem Tracks.answers (h : store.Tracks history) (request : Request) :
    ∃ reply, (store.handle request).1 = .ok reply ∧ Answers history request reply := by
  obtain ⟨parts, fault⟩ := store
  obtain ⟨hfault, htold, -⟩ := h
  obtain rfl : fault = none := hfault
  cases request with
  | get key => exact ⟨_, rfl, .get (htold key)⟩
  | put key value => exact ⟨_, rfl, .put⟩
  | delete key => exact ⟨_, rfl, .delete⟩
  | contains key =>
      refine ⟨_, rfl, .contains ?_⟩
      rw [Option.isSome_iff_exists]
      exact exists_congr (htold key)

/-- Nothing keeps such a store from giving what is stored. -/
theorem Tracks.get_eq (h : store.Tracks history) (key : PartKey) :
    (store.get key).1 = .ok (store.parts.get? key.toBytes) := by
  obtain ⟨parts, fault⟩ := store
  obtain rfl : fault = none := h.fault_eq
  rfl

/-- The parts listed are those for which a value was put last. -/
theorem Tracks.exists_keys (h : store.Tracks history) :
    ∃ keys : List PartKey, keys.Nodup ∧ (∀ key, key ∈ keys ↔ ∃ value, LastPut history key value) ∧
      store.parts.size = keys.length := by
  obtain ⟨keys, hkeys⟩ := h.keyed
  refine ⟨keys, hkeys.nodup, ?_, hkeys.size_eq⟩
  intro key
  rw [hkeys.mem_iff, Option.isSome_iff_exists]
  exact exists_congr (h.get?_iff key)

/-- **The store is a map from addresses and kinds.**  Whatever a store without faults was asked to
do since it was empty, it replies to each request with the value that the requests before it put
last for the same part, if none of them has deleted it since; requests for other parts change
nothing in that, the number of stored parts is the number of different parts that have a value, and
all this because different parts have different keys. -/
theorem history_tells (requests : List Request) :
    (∀ before request after, requests = before ++ request :: after →
      ∃ reply, (empty.handleAll requests).1[before.length]? = some (.ok reply) ∧
        Answers before request reply) ∧
    (∀ later key, (∀ request ∈ later, request.written? ≠ some key) →
      ((empty.handleAll (requests ++ later)).2.get key).1 =
        ((empty.handleAll requests).2.get key).1) ∧
    (∃ keys : List PartKey, keys.Nodup ∧
      (∀ key, key ∈ keys ↔ ∃ value, LastPut requests key value) ∧
      (empty.handleAll requests).2.parts.size = keys.length) ∧
    ∀ a b : PartKey, a.toBytes = b.toBytes → a = b := by
  have htracks := tracks_empty.handleAll requests
  refine ⟨?_, ?_, htracks.exists_keys, fun a b => PartKey.toBytes_inj.1⟩
  · rintro before request after rfl
    obtain ⟨reply, hreply, hanswers⟩ := (tracks_empty.handleAll before).answers request
    exact ⟨reply, by rw [getElem?_handleAll, hreply], hanswers⟩
  · intro later key hother
    have hlater := tracks_empty.handleAll (requests ++ later)
    rw [htracks.get_eq, hlater.get_eq, handleAll_append, get?_handleAll_of_other hother]

/-- The key of one of two accounts whose addresses differ in their kind alone. -/
def twinKey (owner : Address.Kind) (kind : PartKind) : PartKey :=
  ⟨⟨owner, List.replicate 20 0, rfl⟩, kind⟩

/-- The coin part of an account is deleted and put again, while its stake part is put twice and its
twin has a coin part of its own. -/
def twinRequests : List Request :=
  [.put (twinKey .user .coin) [1], .put (twinKey .user .stake) [2], .delete (twinKey .user .coin),
    .get (twinKey .user .coin), .put (twinKey .contract .coin) [3], .put (twinKey .user .coin) [4],
    .put (twinKey .user .stake) [5], .contains (twinKey .contract .stake)]

/-- Requests for other parts than the coin part of the first account. -/
def twinLater : List Request :=
  [.delete (twinKey .contract .coin), .put (twinKey .user .delegation) [6]]

/-- The coin part is missing as long as it is deleted, and three parts are stored in the end; what
is done with the other parts after that does not change the coin part. -/
theorem history_tells_twins :
    twinRequests = twinRequests.take 3 ++ .get (twinKey .user .coin) :: twinRequests.drop 4 ∧
      (∃ reply, (empty.handleAll twinRequests).1[3]? = some (.ok reply) ∧
        Answers (twinRequests.take 3) (.get (twinKey .user .coin)) reply) ∧
      (empty.handleAll twinRequests).1[3]? = some (.ok (.value none)) ∧
      (∀ request ∈ twinLater, request.written? ≠ some (twinKey .user .coin)) ∧
      ((empty.handleAll (twinRequests ++ twinLater)).2.get (twinKey .user .coin)).1 =
        .ok (some [4]) ∧
      (empty.handleAll twinRequests).2.parts.size = 3 := by
  obtain ⟨hreplies, hother, -, -⟩ := history_tells twinRequests
  have hlater : ∀ request ∈ twinLater, request.written? ≠ some (twinKey .user .coin) := by decide
  have hcoin : ((empty.handleAll twinRequests).2.get (twinKey .user .coin)).1 = .ok (some [4]) :=
    rfl
  refine ⟨rfl, hreplies (twinRequests.take 3) _ (twinRequests.drop 4) rfl, rfl, hlater, ?_, rfl⟩
  rw [hother twinLater _ hlater, hcoin]

end Store

end StakeLedger
