/-
**The scan of a buffer and the reader of values agree.**

The scan counts the values that are outstanding; the reader descends into containers and spends a
budget on the way.  Both follow the grammar of pieces, and therefore they agree on where a value
ends: what the scan cuts off is read as one value with nothing left over, unless it is nested too
deep; what is read as one value is where the scan ends, whatever follows, unless the reserved byte
stands as a first byte in it, which the reader takes for nil.

Main definitions:

* `StakeLedger.MsgPack.ReadsOnly`, `StakeLedger.MsgPack.ReadsAll` — readers that follow the grammar.

Main results:

* `StakeLedger.MsgPack.Value.Form.exists_spelling` — the forms of a value follow the grammar;
* `StakeLedger.MsgPack.readsOnly_readValue`, `StakeLedger.MsgPack.readsAll_readValue` — **the reader
  of values follows the grammar, both ways**;
* `StakeLedger.MsgPack.frameLength_agrees` — the scan and the reader agree.
-/
import StakeLedger.Proofs.Forms
import StakeLedger.Proofs.Pieces

set_option autoImplicit false

namespace StakeLedger.MsgPack

open Results

section Readers

variable {α : Type} {read : Bytes → Except ReadFault (α × Bytes)} {count budget : Nat}

/-! ### Readers that follow the grammar -/

/-- A reader that reads nothing but what spells `count` values. -/
def ReadsOnly (count : Nat) (read : Bytes → Except ReadFault (α × Bytes)) : Prop :=
  ∀ ⦃bytes rest : Bytes⦄ ⦃result : α⦄, read bytes = .ok (result, rest) →
    ∃ pieces, Spells count pieces ∧ bytes = spelling pieces ++ rest

/-- A reader that reads whatever spells `count` values, unless it is nested too deep. -/
def ReadsAll (count : Nat) (read : Bytes → Except ReadFault (α × Bytes)) : Prop :=
  ∀ ⦃pieces : List Piece⦄, Spells count pieces → ∀ rest : Bytes,
    read (spelling pieces ++ rest) = .error .tooDeep ∨
      ∃ result, read (spelling pieces ++ rest) = .ok (result, rest)

theorem ReadsAll.pair (h : ReadsAll 1 read) : ReadsAll 2 (readPair read) := by
  intro pieces spells rest
  obtain ⟨front, back, rfl, hfront, hback⟩ := @Spells.split pieces 1 1 spells
  rw [spelling_append, List.append_assoc]
  obtain hdeep | ⟨first, hfirst⟩ := h hfront (spelling back ++ rest)
  · exact Or.inl (bind_eq_error.2 (Or.inl hdeep))
  · obtain hdeep | ⟨second, hsecond⟩ := h hback rest
    · exact Or.inl (bind_eq_error.2 (Or.inr ⟨_, hfirst, bind_eq_error.2 (Or.inl hdeep)⟩))
    · exact Or.inr ⟨(first, second), readPair_eq_ok_iff.2 ⟨_, hfirst, hsecond⟩⟩

theorem ReadsAll.many (h : ReadsAll count read) (n : Nat) :
    ReadsAll (n * count) (readMany read n) := by
  intro pieces spells rest
  induction n generalizing pieces with
  | zero =>
      rw [Nat.zero_mul] at spells
      cases spells
      exact Or.inr ⟨[], rfl⟩
  | succ n ih =>
      rw [Nat.succ_mul, Nat.add_comm] at spells
      obtain ⟨front, back, rfl, hfront, hback⟩ := spells.split
      rw [spelling_append, List.append_assoc]
      obtain hdeep | ⟨item, hitem⟩ := h hfront (spelling back ++ rest)
      · exact Or.inl (bind_eq_error.2 (Or.inl hdeep))
      · obtain hdeep | ⟨items, hitems⟩ := ih hback
        · exact Or.inl (bind_eq_error.2 (Or.inr ⟨_, hitem, bind_eq_error.2 (Or.inl hdeep)⟩))
        · exact Or.inr ⟨item :: items, readMany_succ_eq_ok_iff.2 ⟨_, _, _, hitem, hitems, rfl⟩⟩

/-! ### Values behind their number -/

variable {size : Size} {field bytes rest : Bytes} {value : Value} {n : Nat}

theorem read_shallow (takes : size.Takes field n) (rest : Bytes) :
    (do
      let _ ← size.read (field ++ rest)
      throw .tooDeep : Except ReadFault (Value × Bytes)) = .error .tooDeep :=
  bind_eq_error.2 (Or.inr ⟨_, Size.read_append takes rest, rfl⟩)

/-- A container reads the values that it announces, unless one of them is nested too deep. -/
theorem ReadsAll.container (h : ReadsAll count read) (takes : size.Takes field n)
    (make : List α → Value) {pieces : List Piece} (spells : Spells (n * count) pieces)
    (rest : Bytes) :
    let reading : Except ReadFault (Value × Bytes) := do
      let (n, rest) ← size.read (field ++ (spelling pieces ++ rest))
      let (items, rest) ← readMany read n rest
      return (make items, rest)
    reading = .error .tooDeep ∨ ∃ result, reading = .ok (result, rest) := by
  have hsize := Size.read_append takes (spelling pieces ++ rest)
  rcases h.many n spells rest with hdeep | ⟨items, hitems⟩
  · exact Or.inl (bind_eq_error.2 (Or.inr ⟨_, hsize, bind_eq_error.2 (Or.inl hdeep)⟩))
  · exact Or.inr ⟨_, bind_eq_ok.2 ⟨_, hsize, bind_eq_ok.2 ⟨_, hitems, rfl⟩⟩⟩

end Readers

/-! ### The reader of values -/

variable {budget items : Nat} {b : UInt8} {data rest : Bytes} {value : Value}

/-- A first byte, what belongs to it and what it announces spell one value. -/
theorem exists_spelling_of_takes {lead : Lead} {pieces : List Piece} (hlead : Lead.ofByte b = lead)
    (data : Bytes) (takes : lead.Takes data items) (spells : Spells items pieces) :
    ∃ all, Spells 1 all ∧ b :: (data ++ spelling pieces) = spelling all := by
  subst hlead
  exact ⟨⟨b, data⟩ :: pieces, .cons takes spells, rfl⟩

/-- A first byte that announces no values spells one with what belongs to it. -/
theorem exists_spelling_of_leaf {lead : Lead} (hlead : Lead.ofByte b = lead) (data : Bytes)
    (takes : lead.Takes data 0) : ∃ all, Spells 1 all ∧ b :: data = spelling all := by
  have hspelled := exists_spelling_of_takes hlead data takes .nil
  rwa [spelling_nil, List.append_nil] at hspelled

/-- What is spelled by pieces one after the other is spelled by pieces. -/
theorem exists_spelling_of_flatMap {α : Type} {count : Nat} {spelled : α → Bytes} {forms : List α}
    (h : ∀ form ∈ forms, ∃ pieces, Spells count pieces ∧ spelled form = spelling pieces) :
    ∃ pieces, Spells (forms.length * count) pieces ∧ forms.flatMap spelled = spelling pieces := by
  induction forms with
  | nil => exact ⟨[], by rw [List.length_nil, Nat.zero_mul]; exact .nil, rfl⟩
  | cons form rest ih =>
      obtain ⟨⟨front, hfront, hspelled⟩, hrest⟩ := List.forall_mem_cons.1 h
      obtain ⟨back, hback, hothers⟩ := ih hrest
      refine ⟨front ++ back, ?_, ?_⟩
      · rw [List.length_cons, Nat.succ_mul, Nat.add_comm]
        exact hfront.append hback
      · rw [List.flatMap_cons, spelling_append, hspelled, hothers]

/-- **The forms of a value are spelled by pieces.** -/
theorem Value.Form.exists_spelling {bytes : Bytes} (h : value.Form bytes) :
    ∃ pieces, Spells 1 pieces ∧ bytes = spelling pieces := by
  induction h with
  | nil lead | reserved lead | bool lead | small lead =>
      exact exists_spelling_of_leaf lead [] ⟨rfl, rfl⟩
  | unsigned lead | signed lead => exact exists_spelling_of_leaf lead _ ⟨rfl, rfl⟩
  | float32 lead width | float64 lead width => exact exists_spelling_of_leaf lead _ ⟨width, rfl⟩
  | str lead takes | bin lead takes =>
      exact exists_spelling_of_leaf lead _ ⟨_, _, rfl, takes, rfl⟩
  | ext lead takes => exact exists_spelling_of_leaf lead _ ⟨_, _, _, rfl, takes, rfl⟩
  | @array b size field forms lead takes _ ih =>
      obtain ⟨pieces, hspells, hitems⟩ := exists_spelling_of_flatMap ih
      rw [Nat.mul_one] at hspells
      rw [hitems]
      exact exists_spelling_of_takes lead field takes hspells
  | @map b size field forms lead takes _ _ ih_keys ih_values =>
      have hentries : ∀ form ∈ forms,
          ∃ pieces, Spells 2 pieces ∧ form.2.1 ++ form.2.2 = spelling pieces := by
        intro form hform
        obtain ⟨front, hfront, hkey⟩ := ih_keys form hform
        obtain ⟨back, hback, hvalue⟩ := ih_values form hform
        exact ⟨front ++ back, hfront.append hback, by rw [hkey, hvalue, spelling_append]⟩
      obtain ⟨pieces, hspells, hforms⟩ := exists_spelling_of_flatMap hentries
      rw [hforms]
      exact exists_spelling_of_takes lead field ⟨_, takes, rfl⟩ hspells

/-- **What is read as a value is spelled by pieces.** -/
theorem readsOnly_readValue (budget : Nat) : ReadsOnly 1 (readValue budget) := by
  intro bytes rest value h
  obtain ⟨front, hform, -, rfl⟩ := readValue_eq_ok_iff.1 h
  obtain ⟨pieces, hspells, rfl⟩ := hform.exists_spelling
  exact ⟨pieces, hspells, rfl⟩

/-- **What is spelled by pieces is read as a value, unless it is nested too deep.** -/
theorem readsAll_readValue (budget : Nat) : ReadsAll 1 (readValue budget) := by
  induction budget using Nat.strongRecOn with
  | ind budget ih =>
      intro pieces spells rest
      obtain ⟨⟨b, data⟩, announced, items, rfl, htakes, hannounced⟩ := spells.exists_cons
      cases budget with
      | zero => exact Or.inl rfl
      | succ budget =>
          rw [spelling_cons, List.cons_append, List.append_assoc, readValue]
          change (Lead.ofByte b).Takes data items at htakes
          revert htakes
          cases hlead : Lead.ofByte b with
          | nil | reserved | bool _ | small _ =>
              rintro ⟨hlength, rfl⟩
              cases hannounced
              cases List.length_eq_zero_iff.1 hlength
              exact Or.inr ⟨_, rfl⟩
          | unsigned _ | float32 | float64 =>
              rintro ⟨hlength, rfl⟩
              cases hannounced
              have hread := readNat_append data rest
              rw [hlength] at hread
              exact Or.inr ⟨_, bind_eq_ok.2 ⟨_, hread, rfl⟩⟩
          | signed width =>
              rintro ⟨hlength, rfl⟩
              cases hannounced
              have hread := readField_append data rest
              rw [hlength] at hread
              exact Or.inr ⟨_, bind_eq_ok.2 ⟨_, hread, rfl⟩⟩
          | str size =>
              rintro ⟨field, body, rfl, htakes, rfl⟩
              cases hannounced
              have hread := read_sized htakes .str 2 budget rest
              split at hread
              · exact Or.inr ⟨_, hread⟩
              · exact Or.inl hread
          | bin size =>
              rintro ⟨field, body, rfl, htakes, rfl⟩
              cases hannounced
              have hread := read_sized htakes .bin 1 budget rest
              split at hread
              · exact Or.inr ⟨_, hread⟩
              · exact Or.inl hread
          | ext size =>
              rintro ⟨field, type, body, rfl, htakes, rfl⟩
              cases hannounced
              have hread := read_typed htakes type (fun type data => .ext type.toInt data) budget
                rest
              split at hread
              · exact Or.inr ⟨_, hread⟩
              · exact Or.inl hread
          | array size =>
              intro htakes
              cases budget with
              | zero => exact Or.inl (read_shallow htakes (spelling announced ++ rest))
              | succ inner =>
                  rw [← Nat.mul_one items] at hannounced
                  exact (ih inner (by omega)).container htakes .array hannounced rest
          | map size =>
              rintro ⟨entries, htakes, rfl⟩
              cases budget with
              | zero => exact Or.inl (read_shallow htakes (spelling announced ++ rest))
              | succ inner =>
                  exact (ih inner (by omega)).pair.container htakes .map hannounced rest

/-! ### Where a value ends -/

theorem decodeValue_of_read_error {bytes : Bytes} {fault : ReadFault}
    (h : readValue depthBudget bytes = .error fault) :
    decodeValue bytes = .error (.read fault) := by
  rw [decodeValue, h]

/-- Bytes that spell one value are one value, unless it is nested too deep. -/
theorem decodeValue_spelling {pieces : List Piece} (h : Spells 1 pieces) :
    (∃ value, decodeValue (spelling pieces) = .ok value) ∨
      decodeValue (spelling pieces) = .error (.read .tooDeep) := by
  have hread := readsAll_readValue depthBudget h []
  rw [List.append_nil] at hread
  obtain hdeep | ⟨value, hvalue⟩ := hread
  · exact Or.inr (decodeValue_of_read_error hdeep)
  · exact Or.inl ⟨value, decodeValue_eq_ok_iff.2 hvalue⟩

/-- **What the scan cuts off is one value with nothing after it, unless it is nested too deep.  And
bytes that are one value are spelled by pieces; wherever they are the front of a buffer, the scan
ends with them if the limit allows for them, unless one of the pieces starts with the reserved byte:
then the scan stops at the first one that does.** -/
theorem frameLength_agrees :
    (∀ limit buffer n, frameLength limit buffer = .ok (some n) →
      (∃ value, decodeValue (buffer.take n) = .ok value) ∨
        decodeValue (buffer.take n) = .error (.read .tooDeep)) ∧
    ∀ bytes value, decodeValue bytes = .ok value →
      (∃ pieces, Spells 1 pieces ∧ spelling pieces = bytes) ∧
        ∀ pieces, Spells 1 pieces → spelling pieces = bytes →
          ∀ limit more, bytes.length ≤ limit →
            frameLength limit (bytes ++ more) =
              match firstReserved? pieces with
              | none => .ok (some bytes.length)
              | some offset => .error (.reservedLead offset) := by
  refine ⟨?_, ?_⟩
  · intro limit buffer n hlength
    obtain ⟨pieces, back, hspells, rfl, hn⟩ := exists_spelling_of_scanFrom hlength
    rw [Nat.zero_add] at hn
    rw [hn, List.take_left]
    exact decodeValue_spelling hspells
  · intro bytes value hvalue
    refine ⟨?_, ?_⟩
    · obtain ⟨pieces, hspells, hbytes⟩ :=
        readsOnly_readValue depthBudget (decodeValue_eq_ok_iff.1 hvalue)
      rw [List.append_nil] at hbytes
      exact ⟨pieces, hspells, hbytes.symm⟩
    · rintro pieces hspells rfl limit more room
      have hscan := @scanFrom_spelling _ _ limit 0 hspells (by rwa [Nat.zero_add]) more
      rw [scanResult] at hscan
      simp only [Nat.zero_add] at hscan
      exact hscan

/-- An array of a number and the reserved byte is read, with nil in the place of the byte, but the
scan stops there. -/
theorem frameLength_agrees_reserved :
    decodeValue [0x92, 0x01, 0xc1] = .ok (.array [.int 1, .nil]) ∧
      frameLength 3 ([0x92, 0x01, 0xc1] ++ [0x05]) = .error (.reservedLead 2) ∧
      ((∃ value, decodeValue ([0x91, 0x01, 0x05].take 2) = .ok value) ∨
        decodeValue ([0x91, 0x01, 0x05].take 2) = .error (.read .tooDeep)) := by
  obtain ⟨hcut, hread⟩ := frameLength_agrees
  have hreserved : decodeValue [0x92, 0x01, 0xc1] = .ok (.array [.int 1, .nil]) := rfl
  have hplain : decodeValue [0x91, 0x01] = .ok (.array [.int 1]) := rfl
  have hone : (Lead.ofByte 0x01).Takes [] 0 := ⟨rfl, rfl⟩
  refine ⟨hreserved, ?_, hcut 2 _ 2 ?_⟩
  · exact (hread _ _ hreserved).2 [⟨0x92, []⟩, ⟨0x01, []⟩, ⟨0xc1, []⟩]
      (@Spells.cons 0 2 _ _ ⟨rfl, rfl⟩ (@Spells.cons 1 0 _ _ hone
        (@Spells.cons 0 0 _ _ ⟨rfl, rfl⟩ .nil))) rfl 3 [0x05] (by decide)
  · exact (hread _ _ hplain).2 [⟨0x91, []⟩, ⟨0x01, []⟩]
      (@Spells.cons 0 1 _ _ ⟨rfl, rfl⟩ (@Spells.cons 0 0 _ _ hone .nil)) rfl 2 [0x05] (by decide)

end StakeLedger.MsgPack
