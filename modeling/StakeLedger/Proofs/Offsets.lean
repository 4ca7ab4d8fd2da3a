/-
**What a replacement of delegations changes.**

The offsets of a replacement are found in one pass over the old delegations, which are taken away,
and the new ones, which are added: every move joins the offset of its target.  At every moment of
the pass the offset of a target is what the moves so far add up to for it, each target has one
offset, and the offsets stand in the order in which their targets came.  So the offsets left in the
end are the differences between what the new delegations and the old ones give, and no sum on the
way is greater than what one of the two lists gives in all.

Main definitions:

* `StakeLedger.totalMove` — what moves add up to for a target;
* `StakeLedger.Delegation.givenTo` — what delegations give to a target;
* `StakeLedger.replacementMoves`, `StakeLedger.joined` — the moves of a replacement, and the offsets
  that moves lead to;
* `StakeLedger.FollowsOrder` — what every move keeps of the targets of the offsets;
* `StakeLedger.offsetOf` — what offsets list for a target.

Main results:

* `StakeLedger.FollowsOrder.addOffset`, `StakeLedger.FollowsOrder.joined` — what one move keeps, and
  what all of them keep;
* `StakeLedger.nodup_targets_delegationOffsets`, `StakeLedger.ordered_delegationOffsets` — every
  target has one offset, and the offsets stand in the order of their targets;
* `StakeLedger.totalMove_delegationOffsets`, `StakeLedger.eq_of_mem_delegationOffsets` — an offset
  is what the new delegations give more than the old ones;
* `StakeLedger.inRange_of_mem_joined` — no sum on the way leaves the range of amounts;
* `StakeLedger.delegationOffsets_exact` — **the offsets are exactly what a replacement changes**.
-/
import Mathlib.Data.List.Basic
import StakeLedger.Account.Delegation

set_option autoImplicit false

namespace StakeLedger

variable {target : Address} {moves offsets : List (Address × Int)}
variable {delegations old new : List Delegation}

/-! ### What moves add up to -/

/-- What moves add up to for a target. -/
def totalMove (target : Address) : List (Address × Int) → Int
  | [] => 0
  | (a, delta) :: rest => (if a = target then delta else 0) + totalMove target rest

@[simp] theorem totalMove_nil (target : Address) : totalMove target [] = 0 := rfl

@[simp] theorem totalMove_cons (target a : Address) (delta : Int) (rest : List (Address × Int)) :
    totalMove target ((a, delta) :: rest) =
      (if a = target then delta else 0) + totalMove target rest := rfl

@[simp] theorem totalMove_append (target : Address) (front back : List (Address × Int)) :
    totalMove target (front ++ back) = totalMove target front + totalMove target back := by
  induction front with
  | nil => exact (Int.zero_add _).symm
  | cons move rest ih =>
      rw [List.cons_append, totalMove_cons, totalMove_cons, ih, Int.add_assoc]

/-- The order of moves does not matter. -/
theorem totalMove_perm {others : List (Address × Int)} (h : moves.Perm others) :
    totalMove target moves = totalMove target others := by
  induction h with
  | nil => rfl
  | cons move _ ih => rw [totalMove_cons, totalMove_cons, ih]
  | swap first second rest =>
      rw [totalMove_cons, totalMove_cons, totalMove_cons, totalMove_cons]
      omega
  | trans _ _ first second => exact first.trans second

/-- A target that no move names is not moved. -/
theorem totalMove_of_not_mem (h : target ∉ moves.map Prod.fst) : totalMove target moves = 0 := by
  induction moves with
  | nil => rfl
  | cons move rest ih =>
      rw [List.map_cons, List.mem_cons, not_or] at h
      rw [totalMove_cons, if_neg (Ne.symm h.1), ih h.2, Int.add_zero]

/-- Where every target is named once, a move is all there is for its target. -/
theorem totalMove_of_mem {delta : Int} (nodup : (moves.map Prod.fst).Nodup)
    (h : (target, delta) ∈ moves) : totalMove target moves = delta := by
  induction moves with
  | nil => exact absurd h List.not_mem_nil
  | cons move rest ih =>
      rw [List.map_cons, List.nodup_cons] at nodup
      rw [totalMove_cons]
      rcases List.mem_cons.1 h with rfl | hrest
      · rw [if_pos rfl, totalMove_of_not_mem nodup.1, Int.add_zero]
      · have hother : move.1 ≠ target := by
          rintro rfl
          exact nodup.1 (List.mem_map.2 ⟨_, hrest, rfl⟩)
        rw [if_neg hother, ih nodup.2 hrest, Int.zero_add]

/-- Moves that move nothing can be left out. -/
theorem totalMove_filter_ne_zero (target : Address) (moves : List (Address × Int)) :
    totalMove target (moves.filter fun move => decide (move.2 ≠ 0)) = totalMove target moves := by
  induction moves with
  | nil => rfl
  | cons move rest ih =>
      by_cases hzero : move.2 = 0
      · rw [List.filter_cons_of_neg (by simpa using hzero), ih, totalMove_cons, hzero]
        simp only [ite_self, Int.zero_add]
      · rw [List.filter_cons_of_pos (by simpa using hzero), totalMove_cons, totalMove_cons, ih]

/-! ### What delegations give -/

namespace Delegation

/-- What delegations give to a target. -/
def givenTo (target : Address) (delegations : List Delegation) : Int :=
  totalMove target (delegations.map fun d => (d.target, d.amount))

@[simp] theorem givenTo_nil (target : Address) : givenTo target [] = 0 := rfl

@[simp] theorem givenTo_cons (target : Address) (d : Delegation) (rest : List Delegation) :
    givenTo target (d :: rest) =
      (if d.target = target then d.amount else 0) + givenTo target rest := rfl

@[simp] theorem givenTo_append (target : Address) (front back : List Delegation) :
    givenTo target (front ++ back) = givenTo target front + givenTo target back := by
  rw [givenTo, List.map_append, totalMove_append]
  rfl

theorem givenTo_nonneg (target : Address) (nonneg : ∀ d ∈ delegations, 0 ≤ d.amount) :
    0 ≤ givenTo target delegations := by
  induction delegations with
  | nil => exact Int.le_refl 0
  | cons d rest ih =>
      obtain ⟨hfirst, hrest⟩ := List.forall_mem_cons.1 nonneg
      have := ih hrest
      rw [givenTo_cons]
      split <;> omega

/-- No delegation gives more than all of them together give to its target. -/
theorem amount_le_givenTo (nonneg : ∀ d ∈ delegations, 0 ≤ d.amount) {d : Delegation}
    (h : d ∈ delegations) : d.amount ≤ givenTo d.target delegations := by
  induction delegations with
  | nil => exact absurd h List.not_mem_nil
  | cons first rest ih =>
      obtain ⟨hfirst, hrest⟩ := List.forall_mem_cons.1 nonneg
      rw [givenTo_cons]
      rcases List.mem_cons.1 h with rfl | hmem
      · have := givenTo_nonneg d.target hrest
        rw [if_pos rfl]
        omega
      · have := ih hrest hmem
        split <;> omega

/-- The first delegations of a list give no more than the whole list. -/
theorem givenTo_take_le (target : Address) (nonneg : ∀ d ∈ delegations, 0 ≤ d.amount) (k : Nat) :
    givenTo target (delegations.take k) ≤ givenTo target delegations := by
  have hdropped : 0 ≤ givenTo target (delegations.drop k) :=
    givenTo_nonneg target fun d hd => nonneg d (List.mem_of_mem_drop hd)
  have hall := congrArg (givenTo target) (List.take_append_drop k delegations)
  rw [givenTo_append] at hall
  omega

/-- A target that no delegation names is given nothing. -/
theorem givenTo_of_not_mem (h : target ∉ delegations.map Delegation.target) :
    givenTo target delegations = 0 :=
  totalMove_of_not_mem (by rwa [List.map_map])

theorem totalMove_taken (target : Address) (delegations : List Delegation) :
    totalMove target (delegations.map fun d => (d.target, -d.amount)) =
      -givenTo target delegations := by
  induction delegations with
  | nil => rfl
  | cons d rest ih =>
      rw [List.map_cons, totalMove_cons, ih, givenTo_cons]
      split <;> omega

end Delegation

open Delegation (givenTo)

/-! ### The pass over the moves -/

/-- The moves of a replacement: what the old delegations gave is taken, what the new ones give is
added. -/
def replacementMoves (old new : List Delegation) : List (Address × Int) :=
  old.map (fun d => (d.target, -d.amount)) ++ new.map fun d => (d.target, d.amount)

/-- The offsets after moves have joined them, one after the other. -/
def joined (offsets moves : List (Address × Int)) : List (Address × Int) :=
  moves.foldl (fun offsets move => addOffset move.1 move.2 offsets) offsets

theorem delegationOffsets_eq (old new : List Delegation) :
    delegationOffsets old new =
      (joined [] (replacementMoves old new)).filter fun offset => decide (offset.2 ≠ 0) := rfl

/-- A target joins the end unless it has an offset. -/
theorem targets_addOffset (target : Address) (delta : Int) (offsets : List (Address × Int)) :
    (addOffset target delta offsets).map Prod.fst =
      if target ∈ offsets.map Prod.fst then offsets.map Prod.fst
      else offsets.map Prod.fst ++ [target] := by
  fun_induction addOffset target delta offsets with
  | case1 => rfl
  | case2 offset rest => simp
  | case3 a offset rest hother ih =>
      rw [List.map_cons, ih, List.map_cons]
      have hiff : target ∈ a :: rest.map Prod.fst ↔ target ∈ rest.map Prod.fst := by
        simp [Ne.symm hother]
      simp only [hiff]
      split <;> rfl

/-- Each target that was seen has an offset, and the offsets stand in the order in which their
targets were first seen. -/
structure FollowsOrder (seen : List Address) (offsets : List (Address × Int)) : Prop where
  mem_iff : ∀ target, target ∈ offsets.map Prod.fst ↔ target ∈ seen
  ordered : (offsets.map Prod.fst).Pairwise fun a b => seen.idxOf a < seen.idxOf b

variable {seen : List Address}

theorem FollowsOrder.nil : FollowsOrder [] [] := ⟨fun _ => Iff.rfl, List.Pairwise.nil⟩

/-- A move of a target that was seen leaves the order alone, and a new target joins the end. -/
theorem FollowsOrder.addOffset (h : FollowsOrder seen offsets) (target : Address) (delta : Int) :
    FollowsOrder (seen ++ [target]) (addOffset target delta offsets) where
  mem_iff a := by
    rw [targets_addOffset, List.mem_append, List.mem_singleton, ← h.mem_iff]
    split
    · next hold =>
        refine ⟨Or.inl, ?_⟩
        rintro (ha | rfl)
        · exact ha
        · exact hold
    · rw [List.mem_append, List.mem_singleton]
  ordered := by
    -- what was seen before is found at the same place
    have hplace : ∀ a ∈ offsets.map Prod.fst, (seen ++ [target]).idxOf a = seen.idxOf a :=
      fun a ha => List.idxOf_append_of_mem ((h.mem_iff a).1 ha)
    have hkept : (offsets.map Prod.fst).Pairwise fun a b =>
        (seen ++ [target]).idxOf a < (seen ++ [target]).idxOf b := by
      refine h.ordered.imp_of_mem fun ha hb hlt => ?_
      rw [hplace _ ha, hplace _ hb]
      exact hlt
    rw [targets_addOffset]
    split
    · exact hkept
    · next hnew =>
        refine List.pairwise_append.2 ⟨hkept, List.pairwise_singleton _ _, ?_⟩
        intro a ha b hb
        have hend : (seen ++ [target]).idxOf target = seen.length := by
          rw [List.idxOf_append_of_notMem fun hseen => hnew ((h.mem_iff target).2 hseen),
            List.idxOf_cons_self, Nat.add_zero]
        rw [List.mem_singleton.1 hb, hplace a ha, hend]
        exact List.idxOf_lt_length_of_mem ((h.mem_iff a).1 ha)

/-- Nothing is found before itself, so no target has two offsets. -/
theorem FollowsOrder.nodup (h : FollowsOrder seen offsets) : (offsets.map Prod.fst).Nodup := by
  refine h.ordered.imp fun hlt hsame => ?_
  rw [hsame] at hlt
  exact Nat.lt_irrefl _ hlt

/-- After all moves the offsets follow the order in which the moves name their targets. -/
theorem FollowsOrder.joined (h : FollowsOrder seen offsets) (moves : List (Address × Int)) :
    FollowsOrder (seen ++ moves.map Prod.fst) (joined offsets moves) := by
  induction moves generalizing seen offsets with
  | nil =>
      rw [List.map_nil, List.append_nil]
      exact h
  | cons move rest ih =>
      have hrest := ih (h.addOffset move.1 move.2)
      rwa [List.append_assoc] at hrest

theorem totalMove_addOffset (target a : Address) (delta : Int) (offsets : List (Address × Int)) :
    totalMove target (addOffset a delta offsets) =
      totalMove target offsets + if a = target then delta else 0 := by
  fun_induction addOffset a delta offsets with
  | case1 => simp
  | case2 offset rest =>
      rw [totalMove_cons, totalMove_cons]
      split <;> omega
  | case3 other offset rest hother ih =>
      rw [totalMove_cons, totalMove_cons, ih]
      omega

/-- The offset of a target is what the moves so far add up to for it. -/
theorem totalMove_joined (target : Address) (offsets moves : List (Address × Int)) :
    totalMove target (joined offsets moves) =
      totalMove target offsets + totalMove target moves := by
  induction moves generalizing offsets with
  | nil => exact (Int.add_zero _).symm
  | cons move rest ih =>
      refine (ih _).trans ?_
      rw [totalMove_addOffset, totalMove_cons, Int.add_assoc]

/-! ### The offsets of a replacement -/

theorem targets_replacementMoves (old new : List Delegation) :
    (replacementMoves old new).map Prod.fst = (old ++ new).map Delegation.target := by
  rw [replacementMoves, List.map_append, List.map_map, List.map_map, List.map_append]
  rfl

theorem followsOrder_replacement (old new : List Delegation) :
    FollowsOrder ((old ++ new).map Delegation.target) (joined [] (replacementMoves old new)) := by
  have h := FollowsOrder.nil.joined (replacementMoves old new)
  rwa [List.nil_append, targets_replacementMoves] at h

/-- **Every target has one offset.** -/
theorem nodup_targets_delegationOffsets (old new : List Delegation) :
    ((delegationOffsets old new).map Prod.fst).Nodup := by
  rw [delegationOffsets_eq]
  exact (followsOrder_replacement old new).nodup.sublist (List.filter_sublist.map Prod.fst)

/-- **The offsets stand in the order in which their targets first appear**, the old delegations
before the new ones. -/
theorem ordered_delegationOffsets (old new : List Delegation) :
    ((delegationOffsets old new).map Prod.fst).Pairwise fun a b =>
      ((old ++ new).map Delegation.target).idxOf a <
        ((old ++ new).map Delegation.target).idxOf b := by
  rw [delegationOffsets_eq]
  exact (followsOrder_replacement old new).ordered.sublist (List.filter_sublist.map Prod.fst)

theorem ne_zero_of_mem_delegationOffsets {offset : Address × Int}
    (h : offset ∈ delegationOffsets old new) : offset.2 ≠ 0 :=
  of_decide_eq_true (List.mem_filter.1 h).2

theorem totalMove_replacementMoves (target : Address) (old new : List Delegation) :
    totalMove target (replacementMoves old new) = givenTo target new - givenTo target old := by
  rw [replacementMoves, totalMove_append, Delegation.totalMove_taken]
  change -givenTo target old + givenTo target new = _
  omega

/-- **The offsets are what the new delegations give more than the old ones**, for every target. -/
theorem totalMove_delegationOffsets (target : Address) (old new : List Delegation) :
    totalMove target (delegationOffsets old new) = givenTo target new - givenTo target old := by
  rw [delegationOffsets_eq, totalMove_filter_ne_zero, totalMove_joined, totalMove_nil, Int.zero_add,
    totalMove_replacementMoves]

theorem eq_of_mem_delegationOffsets {delta : Int}
    (h : (target, delta) ∈ delegationOffsets old new) :
    delta = givenTo target new - givenTo target old := by
  rw [← totalMove_delegationOffsets]
  exact (totalMove_of_mem (nodup_targets_delegationOffsets old new) h).symm

/-- Only targets of the old and of the new delegations have offsets. -/
theorem mem_targets_of_mem_delegationOffsets {offset : Address × Int}
    (h : offset ∈ delegationOffsets old new) :
    offset.1 ∈ old.map Delegation.target ∨ offset.1 ∈ new.map Delegation.target := by
  have hjoined : offset.1 ∈ (joined [] (replacementMoves old new)).map Prod.fst :=
    List.mem_map_of_mem (List.mem_filter.1 h).1
  rw [(followsOrder_replacement old new).mem_iff, List.map_append] at hjoined
  exact List.mem_append.1 hjoined

/-! ### The sums on the way -/

/-- After every move, what the moves add up to lies between what the old delegations gave and what
the new ones give. -/
theorem totalMove_take_bounds (target : Address) (hold : ∀ d ∈ old, 0 ≤ d.amount)
    (hnew : ∀ d ∈ new, 0 ≤ d.amount) (k : Nat) :
    -givenTo target old ≤ totalMove target ((replacementMoves old new).take k) ∧
      totalMove target ((replacementMoves old new).take k) ≤ givenTo target new := by
  have htaken := Delegation.givenTo_take_le target hold k
  have hadded := Delegation.givenTo_take_le target hnew (k - old.length)
  have htaken' : 0 ≤ givenTo target (old.take k) :=
    Delegation.givenTo_nonneg target fun d hd => hold d (List.mem_of_mem_take hd)
  have hadded' : 0 ≤ givenTo target (new.take (k - old.length)) :=
    Delegation.givenTo_nonneg target fun d hd => hnew d (List.mem_of_mem_take hd)
  have hmoves : totalMove target ((replacementMoves old new).take k) =
      -givenTo target (old.take k) + givenTo target (new.take (k - old.length)) := by
    rw [replacementMoves, List.take_append, List.length_map, ← List.map_take, ← List.map_take,
      totalMove_append, Delegation.totalMove_taken]
    rfl
  omega

/-- **No sum on the way leaves the range of amounts**: if the delegations are not negative and both
lists give amounts, so is every offset at every moment of the pass. -/
theorem inRange_of_mem_joined (hold : ∀ d ∈ old, 0 ≤ d.amount) (hnew : ∀ d ∈ new, 0 ≤ d.amount)
    (hgiven : ∀ target, givenTo target old ≤ Amount.greatest)
    (hgives : ∀ target, givenTo target new ≤ Amount.greatest) (k : Nat) {offset : Address × Int}
    (h : offset ∈ joined [] ((replacementMoves old new).take k)) : Amount.InRange offset.2 := by
  have htotal : totalMove offset.1 ((replacementMoves old new).take k) = offset.2 := by
    rw [← totalMove_of_mem (FollowsOrder.nil.joined _).nodup h, totalMove_joined,
      totalMove_nil, Int.zero_add]
  obtain ⟨hlower, hupper⟩ := totalMove_take_bounds offset.1 hold hnew k
  have hfirst := hgiven offset.1
  have hsecond := hgives offset.1
  exact Amount.inRange_of_le (by omega) (by omega)

/-! ### The exact differences -/

/-- The offset that is listed for a target, zero if there is none. -/
def offsetOf (target : Address) (offsets : List (Address × Int)) : Int :=
  (offsets.lookup target).getD 0

/-- Where every target is named once, what is listed for it is all there is. -/
theorem offsetOf_eq_totalMove (nodup : (offsets.map Prod.fst).Nodup) :
    offsetOf target offsets = totalMove target offsets := by
  induction offsets with
  | nil => rfl
  | cons offset rest ih =>
      obtain ⟨a, delta⟩ := offset
      rw [List.map_cons, List.nodup_cons] at nodup
      rw [totalMove_cons]
      by_cases hfound : a = target
      · subst hfound
        rw [if_pos rfl, totalMove_of_not_mem nodup.1, Int.add_zero, offsetOf, List.lookup_cons_self]
        rfl
      · have hother : (target == a) = false := beq_false_of_ne (Ne.symm hfound)
        rw [if_neg hfound, Int.zero_add, ← ih nodup.2, offsetOf, List.lookup_cons, hother]
        rfl

theorem offsetOf_delegationOffsets (target : Address) (old new : List Delegation) :
    offsetOf target (delegationOffsets old new) = givenTo target new - givenTo target old := by
  rw [offsetOf_eq_totalMove (nodup_targets_delegationOffsets old new), totalMove_delegationOffsets]

/-- Delegations none of which is negative, and which give an amount to every target. -/
structure Delegation.Fitting (delegations : List Delegation) : Prop where
  nonneg : ∀ d ∈ delegations, 0 ≤ d.amount
  givenTo_le : ∀ target, givenTo target delegations ≤ Amount.greatest

theorem Delegation.Fitting.amount_inRange (h : Delegation.Fitting delegations) {d : Delegation}
    (hd : d ∈ delegations) : Amount.InRange d.amount ∧ Amount.InRange (-d.amount) := by
  have hnonneg := h.nonneg d hd
  have hle := Int.le_trans (Delegation.amount_le_givenTo h.nonneg hd) (h.givenTo_le d.target)
  have hgreatest : 0 ≤ Amount.greatest := by decide
  exact ⟨Amount.inRange_of_le (by omega) hle, Amount.inRange_of_le (by omega) (by omega)⟩

theorem inRange_of_mem_replacementMoves (hold : Delegation.Fitting old)
    (hnew : Delegation.Fitting new) {move : Address × Int} (h : move ∈ replacementMoves old new) :
    Amount.InRange move.2 := by
  rcases List.mem_append.1 h with hmem | hmem
  · obtain ⟨d, hd, rfl⟩ := List.mem_map.1 hmem
    exact (hold.amount_inRange hd).2
  · obtain ⟨d, hd, rfl⟩ := List.mem_map.1 hmem
    exact (hnew.amount_inRange hd).1

/-- **The offsets of a replacement are exactly what it changes.**  Every target is named at most
once and never with zero, what is listed for it is what the new delegations give more than the old
ones, and the targets stand in the order in which they first appear.  If both lists give amounts,
all that is added up on the way are amounts.  Hence the offsets of the opposite replacement are the
opposite ones, and those of two replacements in a row add up. -/
theorem delegationOffsets_exact :
    (∀ old new : List Delegation,
      ((delegationOffsets old new).map Prod.fst).Nodup ∧
      (∀ offset ∈ delegationOffsets old new, offset.2 ≠ 0) ∧
      (∀ target, offsetOf target (delegationOffsets old new) =
        givenTo target new - givenTo target old) ∧
      ((delegationOffsets old new).map Prod.fst).Pairwise fun a b =>
        ((old ++ new).map Delegation.target).idxOf a <
          ((old ++ new).map Delegation.target).idxOf b) ∧
    (∀ old new : List Delegation, Delegation.Fitting old → Delegation.Fitting new →
      (∀ move ∈ replacementMoves old new, Amount.InRange move.2) ∧
      ∀ k, ∀ offset ∈ joined [] ((replacementMoves old new).take k), Amount.InRange offset.2) ∧
    (∀ (first second : List Delegation) (target : Address),
      offsetOf target (delegationOffsets second first) =
        -offsetOf target (delegationOffsets first second)) ∧
    ∀ (first second third : List Delegation) (target : Address),
      offsetOf target (delegationOffsets first second) +
          offsetOf target (delegationOffsets second third) =
        offsetOf target (delegationOffsets first third) := by
  refine ⟨fun old new => ?_, fun old new hold hnew => ?_, fun first second target => ?_,
    fun first second third target => ?_⟩
  · exact ⟨nodup_targets_delegationOffsets old new, fun _ => ne_zero_of_mem_delegationOffsets,
      fun target => offsetOf_delegationOffsets target old new, ordered_delegationOffsets old new⟩
  · refine ⟨fun _ => inRange_of_mem_replacementMoves hold hnew, fun k _ => ?_⟩
    exact inRange_of_mem_joined hold.nonneg hnew.nonneg hold.givenTo_le hnew.givenTo_le k
  · rw [offsetOf_delegationOffsets, offsetOf_delegationOffsets]
    omega
  · rw [offsetOf_delegationOffsets, offsetOf_delegationOffsets, offsetOf_delegationOffsets]
    omega

/-- A user address, told from others by one byte. -/
def targetOf (byte : UInt8) : Address :=
  ⟨.user, List.replicate Address.bodySize byte, by simp⟩

/-- Of two targets the first loses most of what it had and a third one gains; nothing changes for
the second, which the new delegations name first. -/
theorem delegationOffsets_exact_three :
    delegationOffsets [⟨targetOf 1, 10⟩, ⟨targetOf 2, 5⟩]
        [⟨targetOf 2, 5⟩, ⟨targetOf 3, 7⟩, ⟨targetOf 1, 4⟩] = [(targetOf 1, -6), (targetOf 3, 7)] ∧
      ∀ move ∈ replacementMoves [⟨targetOf 1, 10⟩, ⟨targetOf 2, 5⟩]
        [⟨targetOf 2, 5⟩, ⟨targetOf 3, 7⟩, ⟨targetOf 1, 4⟩], Amount.InRange move.2 := by
  obtain ⟨-, hranges, -⟩ := delegationOffsets_exact
  have hold : Delegation.Fitting [⟨targetOf 1, 10⟩, ⟨targetOf 2, 5⟩] := by
    refine ⟨by decide, fun target => ?_⟩
    simp only [Delegation.givenTo_cons, Delegation.givenTo_nil]
    unfold Amount.greatest
    split <;> split <;> omega
  have hnew : Delegation.Fitting [⟨targetOf 2, 5⟩, ⟨targetOf 3, 7⟩, ⟨targetOf 1, 4⟩] := by
    refine ⟨by decide, fun target => ?_⟩
    simp only [Delegation.givenTo_cons, Delegation.givenTo_nil]
    unfold Amount.greatest
    split <;> split <;> split <;> omega
  exact ⟨by decide, (hranges _ _ hold hnew).1⟩

end StakeLedger
