/-
**Results that are there.**

Readers and constructors give a result or an error.  What is known when the result is there is read
off step by step: each step gave one too, and no condition for a refusal held.

Main results:

* `StakeLedger.Results.bind_eq_ok`, `StakeLedger.Results.mapError_eq_ok`,
  `StakeLedger.Results.refused_or_eq_ok` — a result that is there, taken apart;
* `StakeLedger.Results.bind_eq_error` — where an error comes from;
* `StakeLedger.Results.mapM_map` — reading a list that was written item by item;
* `StakeLedger.Results.forall_of_mapM` — what holds of every item that is read.
-/
set_option autoImplicit false

namespace StakeLedger.Results

variable {ε ε' α β : Type}

theorem bind_eq_ok {x : Except ε α} {f : α → Except ε β} {b : β} :
    (x >>= f) = .ok b ↔ ∃ a, x = .ok a ∧ f a = .ok b := by
  cases x with
  | error e =>
      constructor
      · intro h
        cases h
      · rintro ⟨a, h, -⟩
        cases h
  | ok a =>
      constructor
      · intro h
        exact ⟨a, rfl, h⟩
      · rintro ⟨a', ha, h⟩
        cases ha
        exact h

theorem bind_eq_error {x : Except ε α} {f : α → Except ε β} {e : ε} :
    (x >>= f) = .error e ↔ x = .error e ∨ ∃ a, x = .ok a ∧ f a = .error e := by
  cases x with
  | error e' =>
      constructor
      · intro h
        cases h
        exact Or.inl rfl
      · rintro (h | ⟨a, h, -⟩)
        · cases h
          rfl
        · cases h
  | ok a =>
      constructor
      · intro h
        exact Or.inr ⟨a, rfl, h⟩
      · rintro (h | ⟨a', ha, h⟩)
        · cases h
        · cases ha
          exact h

/-- What follows a result goes on with it. -/
theorem ok_bind (a : α) (f : α → Except ε β) : ((.ok a : Except ε α) >>= f) = f a := rfl

theorem error_bind (e : ε) (f : α → Except ε β) :
    ((.error e : Except ε α) >>= f) = .error e := rfl

theorem pure_eq_ok (a : α) : (pure a : Except ε α) = .ok a := rfl

/-- Nothing follows an error. -/
theorem throw_bind (e : ε) (f : α → Except ε β) :
    ((throw e : Except ε α) >>= f) = .error e := rfl

theorem throw_ne_ok (e : ε) (a : α) : (throw e : Except ε α) ≠ .ok a := nofun

theorem mapError_eq_ok {f : ε → ε'} {x : Except ε α} {a : α} :
    x.mapError f = .ok a ↔ x = .ok a := by
  cases x with
  | error e => exact ⟨nofun, nofun⟩
  | ok b =>
      constructor
      · intro h
        cases h
        rfl
      · intro h
        cases h
        rfl

theorem mapError_eq_error {f : ε → ε'} {x : Except ε α} {e : ε'} :
    x.mapError f = .error e ↔ ∃ cause, x = .error cause ∧ f cause = e := by
  cases x with
  | error cause =>
      constructor
      · intro h
        cases h
        exact ⟨cause, rfl, rfl⟩
      · rintro ⟨_, h, rfl⟩
        cases h
        rfl
  | ok a =>
      constructor
      · intro h
        cases h
      · rintro ⟨_, h, -⟩
        cases h

theorem map_eq_ok {f : α → β} {x : Except ε α} {b : β} :
    x.map f = .ok b ↔ ∃ a, x = .ok a ∧ f a = b := by
  cases x with
  | error e => exact ⟨nofun, nofun⟩
  | ok a =>
      constructor
      · intro h
        cases h
        exact ⟨a, rfl, rfl⟩
      · rintro ⟨_, h, rfl⟩
        cases h
        rfl

theorem map_eq_error {f : α → β} {x : Except ε α} {e : ε} :
    x.map f = .error e ↔ x = .error e := by
  cases x with
  | error cause =>
      constructor
      · intro h
        cases h
        rfl
      · intro h
        cases h
        rfl
  | ok a => exact ⟨nofun, nofun⟩

theorem mapError_ok (f : ε → ε') (a : α) : (Except.ok a).mapError f = .ok a := rfl

/-- A result that a condition could have refused. -/
theorem refused_or_eq_ok {c : Prop} [Decidable c] {e : ε} {x : Except ε α} {a : α} :
    (if c then .error e else x) = .ok a ↔ ¬ c ∧ x = .ok a := by
  split
  · next h => exact ⟨nofun, fun hx => absurd h hx.1⟩
  · next h => exact ⟨fun hx => ⟨h, hx⟩, And.right⟩

/-- A list that was written item by item is read item by item. -/
theorem mapM_map {write : α → β} {read : β → Except ε α} {items : List α}
    (reads : ∀ item ∈ items, read (write item) = .ok item) :
    (items.map write).mapM read = .ok items := by
  induction items with
  | nil => rfl
  | cons item rest ih =>
      have hrest := ih fun other hother => reads other (List.mem_cons_of_mem item hother)
      rw [List.map_cons, List.mapM_cons, reads item List.mem_cons_self, ok_bind, hrest, ok_bind,
        pure_eq_ok]

/-- What reading gives for every entry holds of all items of the list that is read. -/
theorem forall_of_mapM {read : β → Except ε α} {P : α → Prop} {entries : List β} {items : List α}
    (h : entries.mapM read = .ok items)
    (yields : ∀ entry ∈ entries, ∀ item, read entry = .ok item → P item) :
    ∀ item ∈ items, P item := by
  induction entries generalizing items with
  | nil =>
      cases h
      exact fun item hitem => absurd hitem List.not_mem_nil
  | cons entry rest ih =>
      obtain ⟨hfirst, hrest⟩ := List.forall_mem_cons.1 yields
      rw [List.mapM_cons] at h
      obtain ⟨item, hitem, h⟩ := bind_eq_ok.1 h
      obtain ⟨others, hothers, hitems⟩ := bind_eq_ok.1 h
      cases hitems
      exact List.forall_mem_cons.2 ⟨hfirst item hitem, ih hothers hrest⟩

end StakeLedger.Results
