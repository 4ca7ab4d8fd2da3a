/-
**A network of accounts that delegate to each other.**

A network is a list of accounts of which no two have the same address, and a call is an operation on
one of them.  The network is balanced if what every account is said to be delegated is what all
accounts together delegate to it.  An account replaces its delegations by several calls, one on
itself and one on each account for which something changes; what is changed for an account is the
difference between what all accounts delegate to it after the replacement and before.

Main definitions:

* `StakeLedger.Network`, `StakeLedger.Network.call`, `StakeLedger.Network.callAll` — networks, and
  calls on their accounts;
* `StakeLedger.Network.Balanced` — **what is said to be delegated is what is delegated**;
* `StakeLedger.Replacement`, `StakeLedger.Network.replacementCalls` — new delegations of an account,
  and the calls that bring them about;
* `StakeLedger.Network.Admits` — replacements for which there is room.

Main results:

* `StakeLedger.Network.Admits.givenTo_delegationsAfter` — the changes for an account make up what is
  delegated to it after a replacement;
* `StakeLedger.Network.Admits.amount_inRange`, `StakeLedger.Network.Balanced.delegatedTo_le` — sums
  of delegations are amounts, before a replacement and after it.
-/
import StakeLedger.Proofs.Offsets
import StakeLedger.Proofs.Ranges

set_option autoImplicit false

namespace StakeLedger

open Delegation (givenTo)

/-! ### Delegation parts -/

namespace DelegationPart

theorem moveDelegated_of_inRange {part : DelegationPart} {delta : Int}
    (nonneg : 0 ≤ part.delegated + delta) (le : part.delegated + delta ≤ Amount.greatest) :
    part.moveDelegated delta = .ok { part with delegated := part.delegated + delta } := by
  have hsum : Amount.add? part.delegated delta = some (part.delegated + delta) :=
    Amount.add?_eq_some_iff.2 ⟨rfl, Int.le_trans (by decide) nonneg, le⟩
  rw [moveDelegated, hsum]
  exact if_neg (Int.not_lt.2 nonneg)

theorem setDelegations_of_nonneg {part : DelegationPart} {delegations : List Delegation}
    (nonneg : ∀ d ∈ delegations, 0 ≤ d.amount) :
    part.setDelegations delegations = .ok { part with delegations } := by
  have hnone : delegations.find? (fun d => decide (d.amount < 0)) = none :=
    List.find?_eq_none.2 fun d hd => by simpa using nonneg d hd
  rw [setDelegations, hnone]

end DelegationPart

namespace Account

variable {account : Account} {part changed : DelegationPart}

/-- What the account delegates, or nothing if its delegation part is not loaded. -/
def given (account : Account) : List Delegation :=
  match account.delegation with
  | some part => part.delegations
  | none => []

theorem given_of_loaded (h : account.delegation = some part) :
    account.given = part.delegations := by
  rw [given, h]

theorem delegationPart_of_loaded (h : account.delegation = some part) :
    account.delegationPart = .ok part := by
  rw [delegationPart, h]

theorem apply_of_perform {operation : Operation} {after : Account}
    (h : account.perform operation = (.ok (), after)) : account.apply operation = .ok after := by
  rw [apply, h]

theorem apply_moveDelegated {delta : Int} (loaded : account.delegation = some part)
    (accepted : part.moveDelegated delta = .ok changed) :
    account.apply (.moveDelegated delta) = .ok (account.putDelegation changed) :=
  apply_of_perform (AccountM.update_of_ok (delegationPart_of_loaded loaded) accepted)

theorem apply_setDelegations {delegations : List Delegation}
    (loaded : account.delegation = some part)
    (accepted : part.setDelegations delegations = .ok changed) :
    account.apply (.setDelegations delegations) = .ok (account.putDelegation changed) :=
  apply_of_perform (AccountM.update_of_ok (delegationPart_of_loaded loaded) accepted)

end Account

/-! ### Networks -/

/-- An account takes the place of one with the same address. -/
theorem map_address_replace (accounts : List Account) (changed : Account) :
    (accounts.map fun account =>
      if account.address = changed.address then changed else account).map Account.address =
        accounts.map Account.address := by
  rw [List.map_map]
  refine List.map_congr_left fun account _ => ?_
  simp only [Function.comp_apply]
  split
  · next h => exact h.symm
  · rfl

/-- Among accounts with different addresses each is found under its own. -/
theorem find?_address {accounts : List Account} {account : Account}
    (distinct : (accounts.map Account.address).Nodup) (h : account ∈ accounts) :
    accounts.find? (fun other => decide (other.address = account.address)) = some account := by
  induction accounts with
  | nil => exact absurd h List.not_mem_nil
  | cons first rest ih =>
      obtain ⟨hfirst, hrest⟩ := List.nodup_cons.1 distinct
      rcases List.mem_cons.1 h with rfl | hmem
      · exact List.find?_cons_of_pos (decide_eq_true rfl)
      · have hother : first.address ≠ account.address := fun hsame =>
          hfirst (hsame ▸ List.mem_map_of_mem hmem)
        rw [List.find?_cons_of_neg (by simpa using hother)]
        exact ih hrest hmem

/-- Accounts of which no two have the same address. -/
structure Network where
  accounts : List Account
  distinct : (accounts.map Account.address).Nodup

/-- An operation on one of the accounts of a network. -/
structure Call where
  address : Address
  operation : Account.Operation
  deriving DecidableEq, Repr

/-- Why a call fails. -/
inductive CallFault
  /-- The network has no account with the address. -/
  | unknownAccount (address : Address)
  /-- The account refuses the operation. -/
  | refused (error : LedgerError)

namespace Network

variable {network after : Network} {account changed : Account} {address : Address}

/-- The addresses of the accounts. -/
def addresses (network : Network) : List Address := network.accounts.map Account.address

/-- The account with an address. -/
def account? (network : Network) (address : Address) : Option Account :=
  network.accounts.find? fun account => decide (account.address = address)

/-- The network with an account in the place of the one that has its address. -/
def put (network : Network) (changed : Account) : Network where
  accounts := network.accounts.map fun account =>
    if account.address = changed.address then changed else account
  distinct := by
    rw [map_address_replace]
    exact network.distinct

/-- Calls an operation on one account. -/
def call (network : Network) (call : Call) : Except CallFault Network :=
  match network.account? call.address with
  | none => .error (.unknownAccount call.address)
  | some account =>
      match account.apply call.operation with
      | .error error => .error (.refused error)
      | .ok changed => .ok (network.put changed)

/-- Calls one operation after the other, up to the first call that fails. -/
def callAll (network : Network) (calls : List Call) : Except CallFault Network :=
  calls.foldlM call network

theorem exists_account (h : address ∈ network.addresses) :
    ∃ account ∈ network.accounts, account.address = address :=
  List.mem_map.1 h

/-- An account is found under its address. -/
theorem account?_of_mem (h : account ∈ network.accounts) :
    network.account? account.address = some account :=
  find?_address network.distinct h

@[simp] theorem addresses_put (network : Network) (changed : Account) :
    (network.put changed).addresses = network.addresses :=
  map_address_replace network.accounts changed

/-- The accounts after a change are the changed one and those with other addresses. -/
theorem mem_put (h : account ∈ (network.put changed).accounts) :
    account = changed ∨ account ∈ network.accounts ∧ account.address ≠ changed.address := by
  obtain ⟨before, hbefore, haccount⟩ := List.mem_map.1 h
  split at haccount
  · exact Or.inl haccount.symm
  · next hother =>
      subst haccount
      exact Or.inr ⟨hbefore, hother⟩

/-- A call that its account accepts puts the changed account into the network. -/
theorem call_of_apply {operation : Account.Operation} (hmem : account ∈ network.accounts)
    (accepted : account.apply operation = .ok changed) :
    network.call ⟨account.address, operation⟩ = .ok (network.put changed) := by
  simp only [call, account?_of_mem hmem, accepted]

theorem callAll_cons_of_ok {call : Call} (h : network.call call = .ok after) (rest : List Call) :
    network.callAll (call :: rest) = after.callAll rest := by
  rw [callAll, List.foldlM_cons, h]
  rfl

/-! ### Balance -/

/-- All delegations that the accounts give. -/
def delegations (network : Network) : List Delegation := network.accounts.flatMap Account.given

/-- What all accounts together delegate to an address. -/
def delegatedTo (network : Network) (address : Address) : Int :=
  givenTo address network.delegations

/-- **A network in which what every account is said to be delegated is what all accounts together
delegate to it**, and in which no delegation goes to an address without an account. -/
structure Balanced (network : Network) : Prop where
  loaded : ∀ account ∈ network.accounts, ∃ part, account.delegation = some part ∧ part.Made ∧
    part.delegated = network.delegatedTo account.address
  targets_known : ∀ d ∈ network.delegations, d.target ∈ network.addresses

/-- What the account with an address delegates, or nothing if there is none. -/
def givenBy (network : Network) (address : Address) : List Delegation :=
  match network.account? address with
  | some account => account.given
  | none => []

theorem givenBy_of_mem (h : account ∈ network.accounts) :
    network.givenBy account.address = account.given := by
  rw [givenBy, account?_of_mem h]

theorem delegations_eq_of_given {lists : Address → List Delegation}
    (h : ∀ account ∈ network.accounts, account.given = lists account.address) :
    network.delegations = network.addresses.flatMap lists := by
  rw [delegations, addresses, List.flatMap_map]
  rw [List.flatMap_def, List.flatMap_def, List.map_congr_left h]

theorem delegations_eq (network : Network) :
    network.delegations = network.addresses.flatMap network.givenBy :=
  delegations_eq_of_given fun _ hmem => (givenBy_of_mem hmem).symm

theorem Balanced.amount_nonneg (h : network.Balanced) {d : Delegation}
    (hd : d ∈ network.delegations) : 0 ≤ d.amount := by
  obtain ⟨account, hmem, hgiven⟩ := List.mem_flatMap.1 hd
  obtain ⟨part, hpart, made, -⟩ := h.loaded account hmem
  rw [Account.given_of_loaded hpart] at hgiven
  exact made.inRange.amount_nonneg d hgiven

theorem Balanced.delegatedTo_le (h : network.Balanced) (address : Address) :
    network.delegatedTo address ≤ Amount.greatest := by
  by_cases hknown : address ∈ network.addresses
  · obtain ⟨account, hmem, rfl⟩ := exists_account hknown
    obtain ⟨part, -, made, hdelegated⟩ := h.loaded account hmem
    exact hdelegated ▸ made.inRange.delegated_le
  · -- no delegation goes to an address without an account
    have hnone : network.delegatedTo address = 0 := Delegation.givenTo_of_not_mem fun hmem => by
      obtain ⟨d, hd, rfl⟩ := List.mem_map.1 hmem
      exact hknown (h.targets_known d hd)
    rw [hnone]
    decide

end Network

/-! ### Replacements -/

/-- An account that replaces its delegations, and the new ones. -/
structure Replacement where
  giver : Address
  delegations : List Delegation
  deriving DecidableEq, Repr

namespace Network

variable {network : Network} {replacement : Replacement} {target : Address}

/-- What the account with an address delegates after a replacement. -/
def givenAfter (network : Network) (replacement : Replacement) (address : Address) :
    List Delegation :=
  if address = replacement.giver then replacement.delegations else network.givenBy address

/-- All delegations that the accounts give after a replacement. -/
def delegationsAfter (network : Network) (replacement : Replacement) : List Delegation :=
  network.addresses.flatMap (network.givenAfter replacement)

/-- What a replacement changes for each account. -/
def offsets (network : Network) (replacement : Replacement) : List (Address × Int) :=
  delegationOffsets (network.givenBy replacement.giver) replacement.delegations

/-- The call that sets the new delegations. -/
def setCall (replacement : Replacement) : Call :=
  ⟨replacement.giver, .setDelegations replacement.delegations⟩

/-- The calls by which an account replaces its delegations: one on itself, and one on each account
for which something changes. -/
def replacementCalls (network : Network) (replacement : Replacement) : List Call :=
  setCall replacement ::
    (network.offsets replacement).map fun offset => ⟨offset.1, .moveDelegated offset.2⟩

/-- A replacement by one of the accounts, with no negative amount and no target without an account,
after which every account is delegated an amount. -/
structure Admits (network : Network) (replacement : Replacement) : Prop where
  giver_known : replacement.giver ∈ network.addresses
  amount_nonneg : ∀ d ∈ replacement.delegations, 0 ≤ d.amount
  targets_known : ∀ d ∈ replacement.delegations, d.target ∈ network.addresses
  total_le : ∀ target, givenTo target (network.delegationsAfter replacement) ≤ Amount.greatest

theorem mem_delegationsAfter {d : Delegation} (h : d ∈ network.delegationsAfter replacement) :
    d ∈ replacement.delegations ∨ d ∈ network.delegations := by
  obtain ⟨address, haddress, hd⟩ := List.mem_flatMap.1 h
  rw [givenAfter] at hd
  split at hd
  · exact Or.inl hd
  · rw [delegations_eq]
    exact Or.inr (List.mem_flatMap.2 ⟨address, haddress, hd⟩)

theorem Balanced.nonneg_after (balanced : network.Balanced) (admits : network.Admits replacement) :
    ∀ d ∈ network.delegationsAfter replacement, 0 ≤ d.amount := by
  intro d hd
  rcases mem_delegationsAfter hd with hnew | hkept
  · exact admits.amount_nonneg d hnew
  · exact balanced.amount_nonneg hkept

/-- One of several accounts gives no more than all of them. -/
theorem givenTo_le_flatMap {addresses : List Address} {giver : Address}
    {lists : Address → List Delegation} (hmem : giver ∈ addresses)
    (nonneg : ∀ d ∈ addresses.flatMap lists, 0 ≤ d.amount) :
    givenTo target (lists giver) ≤ givenTo target (addresses.flatMap lists) := by
  induction addresses with
  | nil => exact absurd hmem List.not_mem_nil
  | cons first rest ih =>
      rw [List.flatMap_cons] at nonneg ⊢
      have hfirst := Delegation.givenTo_nonneg target fun d hd =>
        nonneg d (List.mem_append_left (rest.flatMap lists) hd)
      have hothers := fun d hd => nonneg d (List.mem_append_right (lists first) hd)
      have hrest := Delegation.givenTo_nonneg target hothers
      rw [Delegation.givenTo_append]
      rcases List.mem_cons.1 hmem with rfl | hmem
      · omega
      · have := ih hmem hothers
        omega

theorem Admits.given_le (admits : network.Admits replacement) (balanced : network.Balanced)
    (target : Address) : givenTo target replacement.delegations ≤ Amount.greatest := by
  have hgiven := @givenTo_le_flatMap target _ _ _ admits.giver_known (balanced.nonneg_after admits)
  rw [givenAfter, if_pos rfl] at hgiven
  exact Int.le_trans hgiven (admits.total_le target)

theorem Admits.given_before_le (admits : network.Admits replacement) (balanced : network.Balanced)
    (target : Address) :
    givenTo target (network.givenBy replacement.giver) ≤ Amount.greatest := by
  have hall := balanced.delegatedTo_le target
  rw [delegatedTo, delegations_eq] at hall
  refine Int.le_trans (givenTo_le_flatMap admits.giver_known ?_) hall
  rw [← delegations_eq]
  exact fun d hd => balanced.amount_nonneg hd

theorem Admits.amount_inRange (admits : network.Admits replacement) (balanced : network.Balanced) :
    ∀ d ∈ replacement.delegations, Amount.InRange d.amount := by
  intro d hd
  have hnonneg := admits.amount_nonneg d hd
  have hle := Delegation.amount_le_givenTo admits.amount_nonneg hd
  exact ⟨Int.le_trans (by decide) hnonneg, Int.le_trans hle (admits.given_le balanced d.target)⟩

/-- What the giver gave before is among the delegations of the network. -/
theorem Admits.mem_delegations (admits : network.Admits replacement) {d : Delegation}
    (h : d ∈ network.givenBy replacement.giver) : d ∈ network.delegations := by
  rw [delegations_eq]
  exact List.mem_flatMap.2 ⟨_, admits.giver_known, h⟩

theorem Admits.target_known_of_mem_offsets (admits : network.Admits replacement)
    (balanced : network.Balanced) {offset : Address × Int}
    (h : offset ∈ network.offsets replacement) : offset.1 ∈ network.addresses := by
  rcases mem_targets_of_mem_delegationOffsets h with hold | hnew
  · obtain ⟨d, hd, htarget⟩ := List.mem_map.1 hold
    exact htarget ▸ balanced.targets_known d (admits.mem_delegations hd)
  · obtain ⟨d, hd, htarget⟩ := List.mem_map.1 hnew
    exact htarget ▸ admits.targets_known d hd

/-- One account's delegations in the place of its old ones. -/
theorem givenTo_flatMap_replace {addresses : List Address} {giver : Address}
    (nodup : addresses.Nodup) (hmem : giver ∈ addresses) (lists : Address → List Delegation)
    (new : List Delegation) :
    givenTo target
        (addresses.flatMap fun address => if address = giver then new else lists address) =
      givenTo target (addresses.flatMap lists) - givenTo target (lists giver) +
        givenTo target new := by
  induction addresses with
  | nil => exact absurd hmem List.not_mem_nil
  | cons first rest ih =>
      obtain ⟨hfirst, hrest⟩ := List.nodup_cons.1 nodup
      simp only [List.flatMap_cons, Delegation.givenTo_append]
      by_cases hsame : first = giver
      · subst hsame
        have hothers : rest.map (fun address => if address = first then new else lists address) =
            rest.map lists := by
          refine List.map_congr_left fun address haddress => if_neg ?_
          rintro rfl
          exact hfirst haddress
        rw [if_pos rfl, List.flatMap_def, hothers, ← List.flatMap_def]
        omega
      · have hgiver : giver ∈ rest := (List.mem_cons.1 hmem).resolve_left (Ne.symm hsame)
        rw [if_neg hsame, ih hrest hgiver]
        omega

/-- What a replacement changes for an account, as a whole. -/
theorem Admits.givenTo_delegationsAfter (admits : network.Admits replacement) (target : Address) :
    givenTo target (network.delegationsAfter replacement) =
      network.delegatedTo target + totalMove target (network.offsets replacement) := by
  have hreplaced := @givenTo_flatMap_replace target _ _ network.distinct admits.giver_known
    network.givenBy replacement.delegations
  rw [delegatedTo, delegations_eq, offsets, totalMove_delegationOffsets, delegationsAfter]
  exact hreplaced.trans (by rw [addresses]; omega)

end Network

end StakeLedger
