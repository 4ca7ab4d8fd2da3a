/-
**What the readers of sizes, numbers and data accept.**

A value is read in steps, and each step cuts a field, a size or data off the front of the bytes.
Here each step is described by the bytes that it cuts off, so that a reading can be followed from
its result back to the bytes as well as from the bytes to its result.

Main definitions:

* `StakeLedger.MsgPack.Size.Takes` — the bytes in which a size is given.

Main results:

* `StakeLedger.MsgPack.readField_eq_ok_iff`, `StakeLedger.MsgPack.readBody_eq_ok_iff`,
  `StakeLedger.MsgPack.Size.read_eq_ok_iff` — what the steps accept, and what they leave;
* `StakeLedger.MsgPack.read_sized`, `StakeLedger.MsgPack.read_typed`,
  `StakeLedger.MsgPack.exists_of_read_sized`, `StakeLedger.MsgPack.exists_of_read_typed` — data
  behind its size, from the bytes to the value and back;
* `StakeLedger.MsgPack.readMany_succ_eq_ok_iff`, `StakeLedger.MsgPack.readPair_eq_ok_iff` — readings
  in a row.
-/
import StakeLedger.MsgPack.Reader
import StakeLedger.Proofs.Results

set_option autoImplicit false

namespace StakeLedger.MsgPack

open Results

variable {bytes field rest : Bytes} {width n units budget : Nat}

/-! ### Fields and data -/

theorem readField_eq_ok_iff :
    readField width bytes = .ok (field, rest) ↔ bytes = field ++ rest ∧ field.length = width := by
  rw [← Bytes.split?_eq_some_iff, readField]
  cases bytes.split? width with
  | none => exact ⟨nofun, nofun⟩
  | some cut =>
      rw [Except.ok.injEq, Option.some.injEq]

theorem readBody_eq_ok_iff {body : Bytes} :
    readBody n bytes = .ok (body, rest) ↔ bytes = body ++ rest ∧ body.length = n := by
  rw [← Bytes.split?_eq_some_iff, readBody]
  cases bytes.split? n with
  | none => exact ⟨nofun, nofun⟩
  | some cut =>
      rw [Except.ok.injEq, Option.some.injEq]

theorem readField_append (field rest : Bytes) :
    readField field.length (field ++ rest) = .ok (field, rest) :=
  readField_eq_ok_iff.2 ⟨rfl, rfl⟩

theorem readBody_append (body rest : Bytes) :
    readBody body.length (body ++ rest) = .ok (body, rest) :=
  readBody_eq_ok_iff.2 ⟨rfl, rfl⟩

theorem readNat_eq_ok_iff :
    readNat width bytes = .ok (n, rest) ↔
      ∃ field, bytes = field ++ rest ∧ field.length = width ∧ Bytes.toNat field = n := by
  rw [readNat, bind_eq_ok]
  constructor
  · rintro ⟨⟨field, back⟩, hfield, hresult⟩
    obtain ⟨rfl, hlength⟩ := readField_eq_ok_iff.1 hfield
    cases hresult
    exact ⟨field, rfl, hlength, rfl⟩
  · rintro ⟨field, hbytes, hlength, rfl⟩
    exact ⟨(field, rest), readField_eq_ok_iff.2 ⟨hbytes, hlength⟩, rfl⟩

theorem readNat_append (field rest : Bytes) :
    readNat field.length (field ++ rest) = .ok (Bytes.toNat field, rest) :=
  readNat_eq_ok_iff.2 ⟨field, rfl, rfl, rfl⟩

/-! ### Sizes -/

/-- The bytes in which a size is given, and the size. -/
def Size.Takes (size : Size) (bytes : Bytes) (n : Nat) : Prop :=
  match size with
  | .inline k => bytes = [] ∧ n = k
  | .field width => bytes.length = width ∧ bytes.toNat = n

theorem Size.read_eq_ok_iff {size : Size} :
    size.read bytes = .ok (n, rest) ↔ ∃ field, bytes = field ++ rest ∧ size.Takes field n := by
  cases size with
  | inline k =>
      constructor
      · intro h
        cases h
        exact ⟨[], rfl, rfl, rfl⟩
      · rintro ⟨field, rfl, rfl, rfl⟩
        rfl
  | field width => exact readNat_eq_ok_iff

theorem Size.read_append {size : Size} (takes : size.Takes field n) (rest : Bytes) :
    size.read (field ++ rest) = .ok (n, rest) :=
  Size.read_eq_ok_iff.2 ⟨field, rfl, takes⟩

/-! ### The budget -/

theorem takeBudget_of_le (h : units ≤ budget) : takeBudget units budget = .ok () := by
  rw [takeBudget, if_pos h]

theorem takeBudget_of_lt (h : budget < units) : takeBudget units budget = .error .tooDeep := by
  rw [takeBudget, if_neg (Nat.not_le.2 h)]

theorem takeBudget_eq_ok_iff : takeBudget units budget = .ok () ↔ units ≤ budget := by
  rw [takeBudget]
  split
  · next h => exact ⟨fun _ => h, fun _ => rfl⟩
  · next h => exact ⟨nofun, fun hle => absurd hle h⟩

/-! ### Data behind its size -/

/-- Data behind its size is read, if the budget reaches for it. -/
theorem read_sized {size : Size} {body : Bytes} (takes : size.Takes field body.length)
    (make : Bytes → Value) (units budget : Nat) (rest : Bytes) :
    (do
      let (n, rest) ← size.read (field ++ body ++ rest)
      takeBudget units budget
      let (body, rest) ← readBody n rest
      return (make body, rest) : Except ReadFault (Value × Bytes)) =
      if units ≤ budget then .ok (make body, rest) else .error .tooDeep := by
  rw [List.append_assoc]
  simp only [Size.read_append takes, ok_bind]
  split
  · next hreaches => simp only [takeBudget_of_le hreaches, ok_bind, readBody_append, pure_eq_ok]
  · next hfew => simp only [takeBudget_of_lt (Nat.not_le.1 hfew), error_bind]

/-- Data of an application's own type is read behind its size and its type, if the budget reaches
for it. -/
theorem read_typed {size : Size} {body : Bytes} (takes : size.Takes field body.length)
    (type : UInt8) (make : Bytes → Bytes → Value) (budget : Nat) (rest : Bytes) :
    (do
      let (n, rest) ← size.read (field ++ type :: body ++ rest)
      takeBudget 1 budget
      let (type, rest) ← readField 1 rest
      takeBudget 2 budget
      let (body, rest) ← readBody n rest
      return (make type body, rest) : Except ReadFault (Value × Bytes)) =
      if 2 ≤ budget then .ok (make [type] body, rest) else .error .tooDeep := by
  have htype : readField 1 (type :: (body ++ rest)) = .ok ([type], body ++ rest) :=
    readField_append [type] (body ++ rest)
  rw [List.append_assoc, List.cons_append]
  simp only [Size.read_append takes, ok_bind]
  -- the second check is the stricter one, but the first one comes before the type
  by_cases hone : 1 ≤ budget
  · simp only [takeBudget_of_le hone, ok_bind, htype]
    split
    · next hreaches => simp only [takeBudget_of_le hreaches, ok_bind, readBody_append, pure_eq_ok]
    · next hfew => simp only [takeBudget_of_lt (Nat.not_le.1 hfew), error_bind]
  · rw [if_neg fun hreaches => hone (Nat.le_trans (by decide) hreaches)]
    simp only [takeBudget_of_lt (Nat.not_le.1 hone), error_bind]

/-- Data that is read stands behind its size, and the budget reaches for it. -/
theorem exists_of_read_sized {size : Size} {make : Bytes → Value} {value : Value}
    (h : (do
      let (n, rest) ← size.read bytes
      takeBudget units budget
      let (body, rest) ← readBody n rest
      return (make body, rest) : Except ReadFault (Value × Bytes)) = .ok (value, rest)) :
    ∃ field body, size.Takes field body.length ∧ units ≤ budget ∧ value = make body ∧
      bytes = field ++ body ++ rest := by
  obtain ⟨⟨n, middle⟩, hsize, h⟩ := bind_eq_ok.1 h
  obtain ⟨⟨⟩, hunits, h⟩ := bind_eq_ok.1 h
  obtain ⟨⟨body, back⟩, hbody, hresult⟩ := bind_eq_ok.1 h
  obtain ⟨field, rfl, htakes⟩ := Size.read_eq_ok_iff.1 hsize
  obtain ⟨rfl, rfl⟩ := readBody_eq_ok_iff.1 hbody
  cases hresult
  exact ⟨field, body, htakes, takeBudget_eq_ok_iff.1 hunits, rfl, (List.append_assoc _ _ _).symm⟩

/-- Data of an application's own type that is read stands behind its size and its type, and the
budget reaches for it. -/
theorem exists_of_read_typed {size : Size} {make : Bytes → Bytes → Value} {value : Value}
    (h : (do
      let (n, rest) ← size.read bytes
      takeBudget 1 budget
      let (type, rest) ← readField 1 rest
      takeBudget 2 budget
      let (body, rest) ← readBody n rest
      return (make type body, rest) : Except ReadFault (Value × Bytes)) = .ok (value, rest)) :
    ∃ field type body, size.Takes field body.length ∧ 2 ≤ budget ∧ value = make [type] body ∧
      bytes = field ++ type :: body ++ rest := by
  obtain ⟨⟨n, middle⟩, hsize, h⟩ := bind_eq_ok.1 h
  obtain ⟨-, -, h⟩ := bind_eq_ok.1 h
  obtain ⟨⟨types, data⟩, htype, h⟩ := bind_eq_ok.1 h
  obtain ⟨⟨⟩, hunits, h⟩ := bind_eq_ok.1 h
  obtain ⟨⟨body, back⟩, hbody, hresult⟩ := bind_eq_ok.1 h
  obtain ⟨field, rfl, htakes⟩ := Size.read_eq_ok_iff.1 hsize
  obtain ⟨rfl, hone⟩ := readField_eq_ok_iff.1 htype
  obtain ⟨rfl, rfl⟩ := readBody_eq_ok_iff.1 hbody
  obtain ⟨type, rfl⟩ := List.length_eq_one_iff.1 hone
  cases hresult
  exact ⟨field, type, body, htakes, takeBudget_eq_ok_iff.1 hunits, rfl,
    (List.append_assoc field (type :: body) rest).symm⟩

/-! ### Readings in a row -/

variable {α : Type} {read : Bytes → Except ReadFault (α × Bytes)}

theorem readMany_succ_eq_ok_iff {items : List α} :
    readMany read (n + 1) bytes = .ok (items, rest) ↔
      ∃ item middle others, read bytes = .ok (item, middle) ∧
        readMany read n middle = .ok (others, rest) ∧ items = item :: others := by
  rw [readMany, bind_eq_ok]
  constructor
  · rintro ⟨⟨item, middle⟩, hfirst, hrest⟩
    obtain ⟨⟨others, back⟩, hothers, hresult⟩ := bind_eq_ok.1 hrest
    cases hresult
    exact ⟨item, middle, others, hfirst, hothers, rfl⟩
  · rintro ⟨item, middle, others, hfirst, hothers, rfl⟩
    exact ⟨(item, middle), hfirst, bind_eq_ok.2 ⟨(others, rest), hothers, rfl⟩⟩

theorem readPair_eq_ok_iff {first second : α} :
    readPair read bytes = .ok ((first, second), rest) ↔
      ∃ middle, read bytes = .ok (first, middle) ∧ read middle = .ok (second, rest) := by
  rw [readPair, bind_eq_ok]
  constructor
  · rintro ⟨⟨found, middle⟩, hfirst, hrest⟩
    obtain ⟨⟨other, back⟩, hsecond, hresult⟩ := bind_eq_ok.1 hrest
    cases hresult
    exact ⟨middle, hfirst, hsecond⟩
  · rintro ⟨middle, hfirst, hsecond⟩
    exact ⟨(first, middle), hfirst, bind_eq_ok.2 ⟨(second, rest), hsecond, rfl⟩⟩

end StakeLedger.MsgPack
