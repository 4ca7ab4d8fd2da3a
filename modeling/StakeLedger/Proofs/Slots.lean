/-
**What the operations on slots keep.**

Inserting, draining, raising the last slot and filtering are the only ways in which a list of slots
changes.  Each of them keeps the list valid: every slot holds something and the heights never fall.
Each moves the total by exactly what it adds or takes away, and none makes the list longer than it
announces.

Main results:

* `StakeLedger.Slot.Valid.insert`, `StakeLedger.Slot.Valid.raiseLast`,
  `StakeLedger.Slot.Valid.drain`, `StakeLedger.Slot.Valid.filter` — valid slots stay valid;
* `StakeLedger.Slot.total_raiseLast`, `StakeLedger.Slot.total_filter_insert`,
  `StakeLedger.Slot.total_filter_add_total_filter_not` — the totals.
-/
import StakeLedger.Account.Slot

set_option autoImplicit false

namespace StakeLedger.Slot

/-! ### Valid slots -/

theorem Valid.nil : Valid [] := ⟨by simp, List.Pairwise.nil⟩

/-- The front of a valid list, apart from the rest. -/
theorem valid_cons {first : Slot} {rest : List Slot} :
    Valid (first :: rest) ↔
      0 < first.amount ∧ (∀ slot ∈ rest, first.unlockHeight ≤ slot.unlockHeight) ∧ Valid rest := by
  simp only [Valid, Ordered, List.forall_mem_cons, List.pairwise_cons]
  constructor
  · rintro ⟨⟨hpos, hrest⟩, hfirst, hordered⟩
    exact ⟨hpos, hfirst, hrest, hordered⟩
  · rintro ⟨hpos, hfirst, hrest, hordered⟩
    exact ⟨⟨hpos, hrest⟩, hfirst, hordered⟩

/-- Slots that hold something each hold nothing negative together. -/
theorem total_nonneg {slots : List Slot} (h : ∀ slot ∈ slots, 0 < slot.amount) :
    0 ≤ total slots := by
  induction slots with
  | nil => exact Int.le_refl 0
  | cons first rest ih =>
      obtain ⟨hpos, hrest⟩ := List.forall_mem_cons.1 h
      have := ih hrest
      rw [total_cons]
      omega

theorem Valid.total_nonneg {slots : List Slot} (h : Valid slots) : 0 ≤ total slots :=
  Slot.total_nonneg h.1

/-! ### Inserting -/

theorem mem_insert {slot other : Slot} {slots : List Slot} :
    other ∈ insert slot slots ↔ other = slot ∨ other ∈ slots := by
  induction slots with
  | nil => simp [insert]
  | cons first rest ih =>
      rw [insert]
      split
      · rw [List.mem_cons, ih, List.mem_cons, or_left_comm]
      · rw [List.mem_cons]

@[simp] theorem length_insert (slot : Slot) (slots : List Slot) :
    (insert slot slots).length = slots.length + 1 := by
  induction slots with
  | nil => rfl
  | cons first rest ih =>
      rw [insert]
      split
      · rw [List.length_cons, ih, List.length_cons]
      · rfl

theorem Valid.insert {slot : Slot} {slots : List Slot} (h : Valid slots) (pos : 0 < slot.amount) :
    Valid (insert slot slots) := by
  induction slots with
  | nil => exact valid_cons.2 ⟨pos, by simp, Valid.nil⟩
  | cons first rest ih =>
      obtain ⟨hfirst, hle, hrest⟩ := valid_cons.1 h
      rw [Slot.insert]
      split
      · next hheight =>
          refine valid_cons.2 ⟨hfirst, ?_, ih hrest⟩
          intro other hother
          rcases mem_insert.1 hother with rfl | hmem
          · exact hheight
          · exact hle other hmem
      · next hheight =>
          refine valid_cons.2 ⟨pos, ?_, h⟩
          intro other hother
          rcases List.mem_cons.1 hother with rfl | hmem
          · omega
          · have := hle other hmem
            omega

/-- A filter counts an inserted slot beside the others. -/
theorem total_filter_insert (keep : Slot → Bool) (slot : Slot) (slots : List Slot) :
    total ((insert slot slots).filter keep) =
      (if keep slot then slot.amount else 0) + total (slots.filter keep) := by
  induction slots with
  | nil =>
      simp only [insert, List.filter_cons, List.filter_nil]
      split <;> simp
  | cons first rest ih =>
      rw [insert]
      split
      · simp only [List.filter_cons]
        split
        · rw [total_cons, total_cons, ih]
          omega
        · exact ih
      · rw [List.filter_cons]
        split
        · rw [total_cons]
        · omega

/-- A filter that drops a slot does not tell where it was inserted. -/
theorem filter_insert_of_neg {keep : Slot → Bool} {slot : Slot} (dropped : ¬ keep slot = true)
    (slots : List Slot) : (insert slot slots).filter keep = slots.filter keep := by
  induction slots with
  | nil => exact List.filter_cons_of_neg dropped
  | cons first rest ih =>
      rw [insert]
      split
      · rw [List.filter_cons, List.filter_cons, ih]
      · exact List.filter_cons_of_neg dropped

/-! ### Raising the last slot -/

/-- Once all slots that may be used are used, there is a last one. -/
theorem ne_nil_of_full {slots : List Slot} {slotMax : Nat} (room : slotMax ≠ 0)
    (full : ¬ slots.length < slotMax) : slots ≠ [] := by
  rintro rfl
  exact full (Nat.pos_of_ne_zero room)

/-- Every slot comes from one that held no more and unlocked no later. -/
theorem exists_of_mem_raiseLast {amount : Int} {height : Nat} {slots : List Slot} {slot : Slot}
    (pos : 0 ≤ amount) (h : slot ∈ raiseLast amount height slots) :
    ∃ old ∈ slots, old.amount ≤ slot.amount ∧ old.unlockHeight ≤ slot.unlockHeight := by
  fun_induction raiseLast amount height slots with
  | case1 => simp at h
  | case2 last =>
      rw [List.mem_singleton] at h
      refine ⟨last, List.mem_singleton_self last, ?_⟩
      rw [h]
      exact ⟨by show last.amount ≤ last.amount + amount; omega, Nat.le_max_left ..⟩
  | case3 first rest _ ih =>
      rcases List.mem_cons.1 h with rfl | hmem
      · exact ⟨slot, List.mem_cons_self .., Int.le_refl _, Nat.le_refl _⟩
      · obtain ⟨old, hold, hle⟩ := ih hmem
        exact ⟨old, List.mem_cons_of_mem _ hold, hle⟩

@[simp] theorem length_raiseLast (amount : Int) (height : Nat) (slots : List Slot) :
    (raiseLast amount height slots).length = slots.length := by
  fun_induction raiseLast amount height slots with
  | case1 => rfl
  | case2 => rfl
  | case3 first rest _ ih => rw [List.length_cons, ih, List.length_cons]

theorem total_raiseLast {slots : List Slot} (h : slots ≠ []) (amount : Int) (height : Nat) :
    total (raiseLast amount height slots) = total slots + amount := by
  fun_induction raiseLast amount height slots with
  | case1 => exact absurd rfl h
  | case2 last =>
      simp only [total_cons, total_nil]
      omega
  | case3 first rest hrest ih =>
      have hne : rest ≠ [] := fun hnil => hrest hnil
      rw [total_cons, ih hne, total_cons]
      omega

theorem Valid.raiseLast {amount : Int} {height : Nat} {slots : List Slot} (h : Valid slots)
    (pos : 0 ≤ amount) : Valid (raiseLast amount height slots) := by
  fun_induction Slot.raiseLast amount height slots with
  | case1 => exact h
  | case2 last =>
      obtain ⟨hlast, -⟩ := valid_cons.1 h
      refine valid_cons.2 ⟨?_, by simp, Valid.nil⟩
      change 0 < last.amount + amount
      omega
  | case3 first rest _ ih =>
      obtain ⟨hfirst, hle, hrest⟩ := valid_cons.1 h
      refine valid_cons.2 ⟨hfirst, ?_, ih hrest⟩
      intro slot hslot
      obtain ⟨old, hold, -, hheight⟩ := exists_of_mem_raiseLast pos hslot
      exact Nat.le_trans (hle old hold) hheight

/-! ### Draining and filtering -/

theorem length_drain_le (amount : Int) (slots : List Slot) :
    (drain amount slots).length ≤ slots.length := by
  fun_induction drain amount slots with
  | case1 => exact Nat.le_refl _
  | case2 => exact Nat.le_refl _
  | case3 amount first rest _ _ ih =>
      rw [List.length_cons]
      omega
  | case4 => exact Nat.le_refl _

theorem Valid.drain {slots : List Slot} (h : Valid slots) (amount : Int) :
    Valid (drain amount slots) := by
  fun_induction Slot.drain amount slots with
  | case1 => exact h
  | case2 => exact h
  | case3 amount first rest _ _ ih => exact ih (valid_cons.1 h).2.2
  | case4 amount first rest _ hlt =>
      obtain ⟨-, hle, hrest⟩ := valid_cons.1 h
      refine valid_cons.2 ⟨?_, hle, hrest⟩
      change 0 < first.amount - amount
      omega

/-- To drain twice is to drain both amounts at once, wherever the first one stops. -/
theorem drain_drain {first second : Int} (hfirst : 0 ≤ first) (hsecond : 0 ≤ second)
    (slots : List Slot) : drain second (drain first slots) = drain (first + second) slots := by
  fun_induction drain first slots with
  | case1 => rfl
  | case2 amount slot rest hnone =>
      have hzero : amount = 0 := Int.le_antisymm hnone hfirst
      rw [hzero, Int.zero_add]
  | case3 amount slot rest hsome hused ih =>
      have hrest : amount - slot.amount + second = amount + second - slot.amount := by omega
      rw [ih (by omega), hrest, drain, if_neg (by omega), if_pos (by omega)]
  | case4 amount slot rest hsome hless =>
      rw [drain]
      dsimp only
      by_cases hnone : second ≤ 0
      · have hzero : second = 0 := Int.le_antisymm hnone hsecond
        rw [if_pos hnone, hzero, Int.add_zero, drain, if_neg hsome, if_neg hless]
      · rw [if_neg hnone]
        by_cases hused : slot.amount - amount ≤ second
        · have hrest : second - (slot.amount - amount) = amount + second - slot.amount := by omega
          have hboth : drain (amount + second) (slot :: rest) =
              drain (amount + second - slot.amount) rest := by
            rw [drain, if_neg (by omega), if_pos (by omega)]
          rw [if_pos hused, hrest, hboth]
        · have hleft : slot.amount - amount - second = slot.amount - (amount + second) := by omega
          have hboth : drain (amount + second) (slot :: rest) =
              { slot with amount := slot.amount - (amount + second) } :: rest := by
            rw [drain, if_neg (by omega), if_neg (by omega)]
          rw [if_neg hused, hleft, hboth]

theorem Valid.filter {slots : List Slot} (h : Valid slots) (keep : Slot → Bool) :
    Valid (slots.filter keep) :=
  ⟨fun slot hslot => h.1 slot (List.mem_filter.1 hslot).1, h.2.filter keep⟩

/-- What a filter keeps and what it drops make up the total. -/
theorem total_filter_add_total_filter_not (keep : Slot → Bool) (slots : List Slot) :
    total (slots.filter keep) + total (slots.filter fun slot => !keep slot) = total slots := by
  induction slots with
  | nil => rfl
  | cons first rest ih =>
      cases hkeep : keep first with
      | true =>
          rw [List.filter_cons_of_pos hkeep, List.filter_cons_of_neg (by simp [hkeep]),
            total_cons, total_cons]
          omega
      | false =>
          rw [List.filter_cons_of_neg (by simp [hkeep]), List.filter_cons_of_pos (by simp [hkeep]),
            total_cons, total_cons]
          omega

end StakeLedger.Slot
