/-
**Replacing delegations, in whichever order the calls come.**

While some of the calls of a replacement are still to come, what an account is said to be delegated
and what is still to come for it make up what it is delegated in the end.  As every account is
called at most once for its delegated amount, that amount moves straight from its old value to its
new one, and both are amounts that are not negative.  So no call is refused, and when none is left
to come the network is balanced again.

Main definitions:

* `StakeLedger.Network.Awaits`, `StakeLedger.Network.Underway` — **a network with some of the calls
  of a replacement still to come**;
* `StakeLedger.Network.Round`, `StakeLedger.Network.carryOut` — replacements with their calls in an
  order, and sequences of them;
* `StakeLedger.Network.Admissible` — sequences of which each replacement is admitted in its turn.

Main results:

* `StakeLedger.Network.Underway.step`, `StakeLedger.Network.Underway.callAll` — what one call keeps,
  and what all of them do;
* `StakeLedger.Network.Balanced.callAll` — all calls of a replacement are accepted, in any order,
  and the network is balanced again;
* `StakeLedger.Network.balanced_carryOut` — so it is after any sequence of replacements.
-/
import StakeLedger.Proofs.Network

set_option autoImplicit false

namespace StakeLedger

open Delegation (givenTo)

namespace Network

variable {network now : Network} {replacement : Replacement} {target : Address}

/-! ### While calls are to come -/

/-- The change of a delegated amount that a call asks for, if it does. -/
def moveOf? (call : Call) : Option (Address × Int) :=
  match call.operation with
  | .moveDelegated delta => some (call.address, delta)
  | _ => none

/-- The changes of delegated amounts that calls ask for. -/
def movesOf (calls : List Call) : List (Address × Int) := calls.filterMap moveOf?

theorem movesOf_cons_of_set (address : Address) (delegations : List Delegation)
    (rest : List Call) :
    movesOf (⟨address, .setDelegations delegations⟩ :: rest) = movesOf rest := rfl

theorem movesOf_cons_of_move (address : Address) (delta : Int) (rest : List Call) :
    movesOf (⟨address, .moveDelegated delta⟩ :: rest) = (address, delta) :: movesOf rest := rfl

theorem movesOf_replacementCalls (network : Network) (replacement : Replacement) :
    movesOf (network.replacementCalls replacement) = network.offsets replacement := by
  have hmoves : ∀ offsets : List (Address × Int),
      movesOf (offsets.map fun offset => ⟨offset.1, .moveDelegated offset.2⟩) = offsets := by
    intro offsets
    induction offsets with
    | nil => rfl
    | cons offset rest ih => rw [List.map_cons, movesOf_cons_of_move, ih]
  rw [replacementCalls, setCall, movesOf_cons_of_set, hmoves]

/-- The delegation part of an account with the calls of `rest` still to come.  They add up to what
the account is not yet said to be delegated, and its delegations are the new ones or will be. -/
structure Awaits (network : Network) (replacement : Replacement) (rest : List Call)
    (address : Address) (part : DelegationPart) : Prop where
  made : part.Made
  total_eq : part.delegated + totalMove address (movesOf rest) =
    givenTo address (network.delegationsAfter replacement)
  given_or : part.delegations = network.givenAfter replacement address ∨
    address = replacement.giver ∧ setCall replacement ∈ rest

/-- The network `now` on the way from `network` through a replacement, with the calls of `rest`
still to come. -/
structure Underway (network : Network) (replacement : Replacement) (rest : List Call)
    (now : Network) : Prop where
  addresses_eq : now.addresses = network.addresses
  calls_known : ∀ call ∈ rest, call.address ∈ network.addresses
  calls_shape : ∀ call ∈ rest, call = setCall replacement ∨
    ∃ delta, call = ⟨call.address, .moveDelegated delta⟩
  targets_distinct : ((movesOf rest).map Prod.fst).Nodup
  loaded : ∀ account ∈ now.accounts, ∃ part, account.delegation = some part ∧
    network.Awaits replacement rest account.address part

variable {call : Call} {rest calls : List Call} {address : Address} {part : DelegationPart}
variable {account : Account}

/-- A call on another account is not waited for. -/
theorem Awaits.other (h : network.Awaits replacement (call :: rest) address part)
    (shape : call = setCall replacement ∨ ∃ delta, call = ⟨call.address, .moveDelegated delta⟩)
    (hother : address ≠ call.address) : network.Awaits replacement rest address part where
  made := h.made
  total_eq := by
    rw [← h.total_eq]
    obtain rfl | ⟨delta, hcall⟩ := shape
    · rfl
    · rw [hcall, movesOf_cons_of_move, totalMove_cons, if_neg hother.symm, Int.zero_add]
  given_or := by
    obtain hset | ⟨hgiver, hmem⟩ := h.given_or
    · exact Or.inl hset
    · refine Or.inr ⟨hgiver, (List.mem_cons.1 hmem).resolve_left ?_⟩
      rintro rfl
      exact hother hgiver

theorem Awaits.set (h : network.Awaits replacement (setCall replacement :: rest) address part)
    (hgiver : address = replacement.giver)
    (amounts : ∀ d ∈ replacement.delegations, Amount.InRange d.amount)
    (accepted : part.setDelegations replacement.delegations =
      .ok { part with delegations := replacement.delegations }) :
    network.Awaits replacement rest address
      { part with delegations := replacement.delegations } where
  made := h.made.setDelegations amounts accepted
  total_eq := h.total_eq
  given_or := by
    rw [givenAfter, if_pos hgiver]
    exact Or.inl rfl

/-- The one call for the delegated amount brings what is missing. -/
theorem Awaits.move {delta : Int}
    (h : network.Awaits replacement (⟨address, .moveDelegated delta⟩ :: rest) address part)
    (accepted : part.moveDelegated delta =
      .ok { part with delegated := part.delegated + delta }) :
    network.Awaits replacement rest address
      { part with delegated := part.delegated + delta } where
  made := h.made.moveDelegated accepted
  total_eq := by
    have htotal := h.total_eq
    rw [movesOf_cons_of_move, totalMove_cons, if_pos rfl, ← Int.add_assoc] at htotal
    exact htotal
  given_or := by
    obtain hset | ⟨hgiver, hmem⟩ := h.given_or
    · exact Or.inl hset
    · exact Or.inr ⟨hgiver, (List.mem_cons.1 hmem).resolve_left nofun⟩

/-- A call is accepted by the account that it is on. -/
theorem Awaits.accepted (h : network.Awaits replacement (call :: rest) account.address part)
    (hpart : account.delegation = some part) (hcall : account.address = call.address)
    (balanced : network.Balanced) (admits : network.Admits replacement)
    (shape : call = setCall replacement ∨ ∃ delta, call = ⟨call.address, .moveDelegated delta⟩)
    (once : ((movesOf (call :: rest)).map Prod.fst).Nodup) :
    ∃ changed, account.apply call.operation = .ok (account.putDelegation changed) ∧
      network.Awaits replacement rest account.address changed := by
  obtain rfl | ⟨delta, hmove⟩ := shape
  · have haccepted := @DelegationPart.setDelegations_of_nonneg part _ admits.amount_nonneg
    exact ⟨_, Account.apply_setDelegations hpart haccepted,
      h.set hcall (admits.amount_inRange balanced) haccepted⟩
  · rw [hmove, ← hcall] at h once
    rw [hmove]
    have htotal := h.total_eq
    rw [movesOf_cons_of_move, List.map_cons, List.nodup_cons] at once
    -- no other move is to come for the account, so this one leads to its total
    rw [movesOf_cons_of_move, totalMove_cons, if_pos rfl, totalMove_of_not_mem once.1,
      Int.add_zero] at htotal
    have haccepted := @DelegationPart.moveDelegated_of_inRange part delta
      (htotal ▸ Delegation.givenTo_nonneg _ (balanced.nonneg_after admits))
      (htotal ▸ admits.total_le _)
    exact ⟨_, Account.apply_moveDelegated hpart haccepted, h.move haccepted⟩

/-- **One call of a replacement is accepted, and the network stays underway.** -/
theorem Underway.step (h : network.Underway replacement (call :: rest) now)
    (balanced : network.Balanced) (admits : network.Admits replacement) :
    ∃ after, now.call call = .ok after ∧ network.Underway replacement rest after := by
  obtain ⟨hknown, hrest_known⟩ := List.forall_mem_cons.1 h.calls_known
  obtain ⟨hshape, hrest_shape⟩ := List.forall_mem_cons.1 h.calls_shape
  rw [← h.addresses_eq] at hknown
  obtain ⟨account, hmem, hcall⟩ := exists_account hknown
  obtain ⟨part, hpart, awaits⟩ := h.loaded account hmem
  obtain ⟨changed, haccepted, hchanged⟩ :=
    awaits.accepted hpart hcall balanced admits hshape h.targets_distinct
  have hnow : now.call call = .ok (now.put (account.putDelegation changed)) := by
    have hput := call_of_apply hmem haccepted
    rwa [hcall] at hput
  refine ⟨_, hnow, ?_⟩
  exact
    { addresses_eq := (addresses_put _ _).trans h.addresses_eq
      calls_known := hrest_known
      calls_shape := hrest_shape
      targets_distinct := h.targets_distinct.sublist
        (((List.sublist_cons_self call rest).filterMap moveOf?).map Prod.fst)
      loaded := by
        intro other hother
        obtain rfl | ⟨hbefore, hne⟩ := mem_put hother
        · exact ⟨changed, rfl, hchanged⟩
        · obtain ⟨found, hfound, awaits⟩ := h.loaded other hbefore
          exact ⟨found, hfound, awaits.other hshape (hcall ▸ hne)⟩ }

/-- All calls of a replacement that are to come are accepted. -/
theorem Underway.callAll (h : network.Underway replacement rest now)
    (balanced : network.Balanced) (admits : network.Admits replacement) :
    ∃ after, now.callAll rest = .ok after ∧ network.Underway replacement [] after := by
  induction rest generalizing now with
  | nil => exact ⟨now, rfl, h⟩
  | cons call rest ih =>
      obtain ⟨next, hcall, hnext⟩ := h.step balanced admits
      obtain ⟨after, hrest, hafter⟩ := ih hnext
      exact ⟨after, (callAll_cons_of_ok hcall rest).trans hrest, hafter⟩

/-! ### From the first call to the last -/

/-- Before its first call a replacement is underway. -/
theorem Underway.start (balanced : network.Balanced) (admits : network.Admits replacement)
    (order : calls.Perm (network.replacementCalls replacement)) :
    network.Underway replacement calls network := by
  have hmoves := order.filterMap moveOf?
  rw [← movesOf, ← movesOf, movesOf_replacementCalls] at hmoves
  refine ⟨rfl, fun call hcall => ?_, fun call hcall => ?_, ?_, fun account hmem => ?_⟩
  · rcases List.mem_cons.1 (order.mem_iff.1 hcall) with rfl | hmove
    · exact admits.giver_known
    · obtain ⟨offset, hoffset, rfl⟩ := List.mem_map.1 hmove
      exact admits.target_known_of_mem_offsets balanced hoffset
  · rcases List.mem_cons.1 (order.mem_iff.1 hcall) with rfl | hmove
    · exact Or.inl rfl
    · obtain ⟨offset, -, rfl⟩ := List.mem_map.1 hmove
      exact Or.inr ⟨offset.2, rfl⟩
  · exact (hmoves.map Prod.fst).nodup_iff.2 (nodup_targets_delegationOffsets _ _)
  · obtain ⟨part, hpart, made, hdelegated⟩ := balanced.loaded account hmem
    refine ⟨part, hpart, made, ?_, ?_⟩
    · rw [admits.givenTo_delegationsAfter, totalMove_perm hmoves, hdelegated]
    · by_cases hgiver : account.address = replacement.giver
      · exact Or.inr ⟨hgiver, order.mem_iff.2 List.mem_cons_self⟩
      · rw [givenAfter, if_neg hgiver, givenBy_of_mem hmem, Account.given_of_loaded hpart]
        exact Or.inl rfl

/-- After its last call the network is balanced. -/
theorem Underway.balanced (h : network.Underway replacement [] now) (balanced : network.Balanced)
    (admits : network.Admits replacement) : now.Balanced := by
  have hdelegations : now.delegations = network.delegationsAfter replacement := by
    rw [delegationsAfter, ← h.addresses_eq]
    refine delegations_eq_of_given fun account hmem => ?_
    obtain ⟨part, hpart, awaits⟩ := h.loaded account hmem
    obtain hset | ⟨-, htocome⟩ := awaits.given_or
    · rw [Account.given_of_loaded hpart, hset]
    · exact absurd htocome List.not_mem_nil
  refine ⟨fun account hmem => ?_, fun d hd => ?_⟩
  · obtain ⟨part, hpart, awaits⟩ := h.loaded account hmem
    refine ⟨part, hpart, awaits.made, ?_⟩
    rw [delegatedTo, hdelegations, ← awaits.total_eq]
    exact (Int.add_zero _).symm
  · rw [hdelegations] at hd
    rw [h.addresses_eq]
    rcases mem_delegationsAfter hd with hnew | hkept
    · exact admits.targets_known d hnew
    · exact balanced.targets_known d hkept

/-- **All calls of a replacement are accepted, in whichever order they come, and the network is
balanced again.** -/
theorem Balanced.callAll (balanced : network.Balanced) (admits : network.Admits replacement)
    (order : calls.Perm (network.replacementCalls replacement)) :
    ∃ after, network.callAll calls = .ok after ∧ after.Balanced := by
  obtain ⟨after, hcalls, hafter⟩ := (Underway.start balanced admits order).callAll balanced admits
  exact ⟨after, hcalls, hafter.balanced balanced admits⟩

/-! ### Sequences of replacements -/

/-- A replacement with its calls in the order in which they come. -/
structure Round where
  replacement : Replacement
  calls : List Call

/-- Carries replacements out one after the other, up to the first call that fails. -/
def carryOut (network : Network) (rounds : List Round) : Except CallFault Network :=
  rounds.foldlM (fun network round => network.callAll round.calls) network

/-- Replacements each of which is admitted in its turn, with its calls in any order. -/
def Admissible : Network → List Round → Prop
  | _, [] => True
  | network, round :: rest =>
      network.Admits round.replacement ∧
        round.calls.Perm (network.replacementCalls round.replacement) ∧
          ∀ after, network.callAll round.calls = .ok after → after.Admissible rest

/-- A sequence of replacements is carried out and leads to a balanced network. -/
theorem Balanced.carryOut {rounds : List Round} (balanced : network.Balanced)
    (admissible : network.Admissible rounds) :
    ∃ after, network.carryOut rounds = .ok after ∧ after.Balanced := by
  induction rounds generalizing network with
  | nil => exact ⟨network, rfl, balanced⟩
  | cons round rest ih =>
      obtain ⟨admits, order, hrest⟩ := admissible
      obtain ⟨next, hcalls, hnext⟩ := balanced.callAll admits order
      obtain ⟨after, hafter, hbalanced⟩ := ih hnext (hrest next hcalls)
      refine ⟨after, ?_, hbalanced⟩
      rw [Network.carryOut, List.foldlM_cons, hcalls]
      exact hafter

/-- **In a balanced network an account replaces its delegations by calls that are all accepted, in
whichever order they come, and the network is balanced again; finding the calls leads to no sum that
is not an amount.  So every sequence of replacements, by whichever accounts, is carried out and
leads to a balanced network.** -/
theorem balanced_carryOut (balanced : network.Balanced) :
    (∀ replacement, network.Admits replacement →
      (∀ k, ∀ offset ∈ joined [] ((replacementMoves (network.givenBy replacement.giver)
        replacement.delegations).take k), Amount.InRange offset.2) ∧
      ∀ calls, calls.Perm (network.replacementCalls replacement) →
        ∃ after, network.callAll calls = .ok after ∧ after.Balanced) ∧
    ∀ rounds, network.Admissible rounds →
      ∃ after, network.carryOut rounds = .ok after ∧ after.Balanced := by
  refine ⟨fun replacement admits => ⟨fun k offset hoffset => ?_, fun calls order => ?_⟩,
    fun rounds admissible => ?_⟩
  · exact inRange_of_mem_joined (fun d hd => balanced.amount_nonneg (admits.mem_delegations hd))
      admits.amount_nonneg (admits.given_before_le balanced) (admits.given_le balanced) k hoffset
  · exact balanced.callAll admits order
  · exact balanced.carryOut admissible

/-! ### Two accounts -/

/-- An account that delegates to itself and, twice, to another one. -/
def firstOfTwo : Account where
  address := ⟨.user, List.replicate Address.bodySize 1, rfl⟩
  height := 0
  revision := .multipleUnstake
  coin := none
  stake := none
  delegation := some
    { delegated := 5
      delegations :=
        [⟨⟨.user, List.replicate Address.bodySize 1, rfl⟩, 5⟩,
          ⟨⟨.user, List.replicate Address.bodySize 2, rfl⟩, 3⟩,
          ⟨⟨.user, List.replicate Address.bodySize 2, rfl⟩, 4⟩] }

/-- An account that delegates nothing. -/
def secondOfTwo : Account :=
  { firstOfTwo with
    address := ⟨.user, List.replicate Address.bodySize 2, rfl⟩
    delegation := some { delegated := 7, delegations := [] } }

/-- The two accounts. -/
def two : Network := ⟨[firstOfTwo, secondOfTwo], by decide⟩

theorem two_balanced : two.Balanced where
  loaded := by
    intro account hmem
    rcases List.mem_cons.1 hmem with rfl | hmem
    · refine ⟨_, rfl, ?_, by decide⟩
      have hmoved := @DelegationPart.Made.moveDelegated _ ⟨5, []⟩ 5 .empty rfl
      exact @DelegationPart.Made.setDelegations _ _ firstOfTwo.given hmoved (by decide) rfl
    · cases List.mem_singleton.1 hmem
      exact ⟨_, rfl, @DelegationPart.Made.moveDelegated _ _ 7 .empty rfl, by decide⟩
  targets_known := by decide

/-- The first account gives less to itself and more to the second one; the calls on the accounts
that receive come before and after the one on the giver. -/
def firstRound : Round where
  replacement := ⟨firstOfTwo.address,
    [⟨secondOfTwo.address, 2⟩, ⟨firstOfTwo.address, 1⟩, ⟨secondOfTwo.address, 6⟩]⟩
  calls :=
    [⟨secondOfTwo.address, .moveDelegated 1⟩,
      ⟨firstOfTwo.address, .setDelegations
        [⟨secondOfTwo.address, 2⟩, ⟨firstOfTwo.address, 1⟩, ⟨secondOfTwo.address, 6⟩]⟩,
      ⟨firstOfTwo.address, .moveDelegated (-4)⟩]

/-- The second account starts to give, for itself nothing. -/
def secondRound : Round where
  replacement := ⟨secondOfTwo.address, [⟨firstOfTwo.address, 10⟩, ⟨secondOfTwo.address, 0⟩]⟩
  calls :=
    [⟨firstOfTwo.address, .moveDelegated 10⟩,
      ⟨secondOfTwo.address, .setDelegations
        [⟨firstOfTwo.address, 10⟩, ⟨secondOfTwo.address, 0⟩]⟩]

/-- The two accounts after the first replacement. -/
def twoReplaced : Network where
  accounts :=
    [firstOfTwo.putDelegation ⟨1, firstRound.replacement.delegations⟩,
      secondOfTwo.putDelegation ⟨8, []⟩]
  distinct := by decide

theorem two_admissible : two.Admissible [firstRound, secondRound] := by
  have hbound : (20 : Int) ≤ Amount.greatest := by decide
  refine ⟨⟨by decide, by decide, by decide, fun target => ?_⟩, by decide, ?_⟩
  · change givenTo target firstRound.replacement.delegations ≤ _
    simp only [firstRound, Delegation.givenTo_cons, Delegation.givenTo_nil]
    split <;> split <;> omega
  · have hcalls : two.callAll firstRound.calls = .ok twoReplaced := rfl
    intro after hafter
    rw [hcalls] at hafter
    cases hafter
    refine ⟨⟨by decide, by decide, by decide, fun target => ?_⟩, by decide, fun _ _ => trivial⟩
    change givenTo target (firstRound.replacement.delegations ++
      secondRound.replacement.delegations) ≤ _
    simp only [firstRound, secondRound, List.cons_append, List.nil_append, Delegation.givenTo_cons,
      Delegation.givenTo_nil]
    split <;> split <;> omega

theorem two_balanced_carryOut :
    ∃ after, two.carryOut [firstRound, secondRound] = .ok after ∧ after.Balanced :=
  (balanced_carryOut two_balanced).2 _ two_admissible

end Network

end StakeLedger
