/-
**The scan passes what is written.**

A value that is written is spelled by pieces, and no first byte that the writer uses is the reserved
one.  The scan therefore ends where the written value ends, whatever follows it.

Main definitions:

* `StakeLedger.MsgPack.Plain` — bytes that spell values without the reserved byte.

Main results:

* `StakeLedger.MsgPack.Value.Fits.plain` — **written values are plain**;
* `StakeLedger.MsgPack.Value.Fits.frameLength_encode` — the scan ends where a written value does.
-/
import StakeLedger.Proofs.Pieces
import StakeLedger.Proofs.RoundTrip

set_option autoImplicit false

namespace StakeLedger.MsgPack

/-! ### Bytes without the reserved byte -/

/-- Bytes that spell `count` values, no piece of which starts with the reserved byte. -/
def Plain (count : Nat) (bytes : Bytes) : Prop :=
  ∃ pieces, Spells count pieces ∧ (∀ piece ∈ pieces, piece.lead ≠ reservedLead) ∧
    spelling pieces = bytes

theorem firstReserved?_eq_none {pieces : List Piece}
    (h : ∀ piece ∈ pieces, piece.lead ≠ reservedLead) : firstReserved? pieces = none := by
  induction pieces with
  | nil => rfl
  | cons piece rest ih =>
      obtain ⟨hpiece, hrest⟩ := List.forall_mem_cons.1 h
      rw [firstReserved?, if_neg hpiece, ih hrest, Option.map_none]

section Plain

variable {count more items : Nat} {b : UInt8} {bytes data back : Bytes} {lead : Lead}

theorem Plain.nil : Plain 0 [] := ⟨[], .nil, nofun, rfl⟩

theorem Plain.append (h : Plain count bytes) (hback : Plain more back) :
    Plain (count + more) (bytes ++ back) := by
  obtain ⟨front, hfront, hfront_sane, rfl⟩ := h
  obtain ⟨last, hlast, hlast_sane, rfl⟩ := hback
  refine ⟨front ++ last, hfront.append hlast, ?_, spelling_append front last⟩
  exact fun piece hpiece => (List.mem_append.1 hpiece).elim (hfront_sane piece) (hlast_sane piece)

/-- What is plain item by item is plain one item after the other. -/
theorem Plain.flatMap {α : Type} {write : α → Bytes} {values : List α}
    (h : ∀ value ∈ values, Plain count (write value)) :
    Plain (values.length * count) (values.flatMap write) := by
  induction values with
  | nil => exact (Nat.zero_mul count).symm ▸ Plain.nil
  | cons value rest ih =>
      obtain ⟨hvalue, hrest⟩ := List.forall_mem_cons.1 h
      rw [List.length_cons, Nat.succ_mul, Nat.add_comm, List.flatMap_cons]
      exact hvalue.append (ih hrest)

/-- A first byte, what belongs to it and what it announces are one plain value. -/
theorem Plain.cons (hlead : Lead.ofByte b = lead) (sane : lead ≠ .reserved)
    (takes : lead.Takes data items) (h : Plain items back) : Plain 1 (b :: (data ++ back)) := by
  subst hlead
  obtain ⟨pieces, hpieces, hsane, rfl⟩ := h
  refine ⟨⟨b, data⟩ :: pieces, .cons takes hpieces, List.forall_mem_cons.2 ⟨?_, hsane⟩, rfl⟩
  exact fun hreserved => sane ((Lead.ofByte_eq_reserved_iff b).2 hreserved)

/-- A first byte and what belongs to it, where it announces nothing. -/
theorem Plain.leaf (hlead : Lead.ofByte b = lead) (sane : lead ≠ .reserved)
    (takes : lead.Takes data 0) : Plain 1 (b :: data) := by
  have h := Plain.cons hlead sane takes Plain.nil
  rwa [List.append_nil] at h

end Plain

/-! ### The scan -/

variable {limit : Nat} {bytes : Bytes}

/-- The scan ends where a plain value does, whatever follows. -/
theorem Plain.frameLength_append (h : Plain 1 bytes) (room : bytes.length ≤ limit)
    (more : Bytes) : frameLength limit (bytes ++ more) = .ok (some bytes.length) := by
  obtain ⟨pieces, hspells, hsane, rfl⟩ := h
  have hscan := @scanFrom_spelling _ _ limit 0 hspells (by rwa [Nat.zero_add]) more
  rw [scanResult, firstReserved?_eq_none hsane, Nat.zero_add] at hscan
  exact hscan

/-! ### Written values -/

theorem plain_intForm (n : Int) : Plain 1 (intForm n) := by
  have hwidth := fun width => Bytes.length_ofInt width n
  have hunsigned : ∀ b width, Lead.ofByte b = .unsigned width →
      Plain 1 (b :: Bytes.ofInt width n) :=
    fun b width hlead => .leaf hlead Lead.noConfusion ⟨hwidth width, rfl⟩
  have hsigned : ∀ b width, Lead.ofByte b = .signed width →
      Plain 1 (b :: Bytes.ofInt width n) :=
    fun b width hlead => .leaf hlead Lead.noConfusion ⟨hwidth width, rfl⟩
  have hsmall : -0x20 ≤ n → n < 0x80 → Plain 1 (Bytes.ofInt 1 n) := by
    intro least greatest
    obtain ⟨b, hbyte, hlead⟩ := ofByte_ofInt_one least greatest
    rw [hbyte]
    exact .leaf hlead Lead.noConfusion ⟨rfl, rfl⟩
  unfold intForm
  split
  · next nonneg =>
      split
      · next h => exact hsmall (by omega) h
      split
      · exact hunsigned 0xcc 1 rfl
      split
      · exact hunsigned 0xcd 2 rfl
      split
      · exact hunsigned 0xce 4 rfl
      · exact hunsigned 0xcf 8 rfl
  · next negative =>
      split
      · next h => exact hsmall h (by omega)
      split
      · exact hsigned 0xd0 1 rfl
      split
      · exact hsigned 0xd1 2 rfl
      split
      · exact hsigned 0xd2 4 rfl
      · exact hsigned 0xd3 8 rfl

/-- **Written values are plain.** -/
theorem Value.Fits.plain {budget : Nat} {value : Value} (h : value.Fits budget) :
    Plain 1 value.encode := by
  induction h with
  | nil => exact .leaf (b := 0xc0) rfl Lead.noConfusion ⟨rfl, rfl⟩
  | bool b => cases b <;> exact .leaf rfl Lead.noConfusion ⟨rfl, rfl⟩
  | int _ _ => exact plain_intForm _
  | float32 bits => exact .leaf rfl Lead.noConfusion ⟨Bytes.length_ofNat _ _, rfl⟩
  | float64 bits => exact .leaf rfl Lead.noConfusion ⟨Bytes.length_ofNat _ _, rfl⟩
  | @str budget bytes text size =>
      obtain ⟨b, field, how, hhead, hlead, takes⟩ := heads_strHead size
      rw [Value.encode, textHead, if_pos text, hhead]
      exact .leaf hlead Lead.noConfusion ⟨field, bytes, rfl, takes, rfl⟩
  | @bin budget bytes size =>
      obtain ⟨b, field, how, hhead, hlead, takes⟩ := heads_binHead size
      rw [Value.encode, hhead]
      exact .leaf hlead Lead.noConfusion ⟨field, bytes, rfl, takes, rfl⟩
  | @array budget items size _ ih =>
      obtain ⟨b, field, how, hhead, hlead, takes⟩ := heads_arrayHead size
      have hitems := Plain.flatMap ih
      rw [Nat.mul_one] at hitems
      rw [Value.encode, Value.encodeItems_eq_flatMap, hhead]
      exact .cons hlead Lead.noConfusion takes hitems
  | @map budget entries size _ _ ih_keys ih_values =>
      obtain ⟨b, field, how, hhead, hlead, takes⟩ := heads_mapHead size
      have hentries : Plain (entries.length * 2) (entries.flatMap Value.encodeEntry) :=
        .flatMap fun entry hentry => (ih_keys entry hentry).append (ih_values entry hentry)
      rw [Value.encode, Value.encodeEntries_eq_flatMap, hhead]
      exact .cons hlead Lead.noConfusion ⟨entries.length, takes, rfl⟩ hentries
  | @ext budget type data least greatest size =>
      obtain ⟨b, field, how, hhead, hlead, takes⟩ := heads_extHead size
      have hbyte : Bytes.ofInt 1 type = [UInt8.ofNat (type % 256).toNat] := Bytes.ofInt_succ 0 type
      rw [Value.encode, hhead, hbyte, List.append_assoc]
      exact .leaf hlead Lead.noConfusion ⟨field, _, data, rfl, takes, rfl⟩

/-- The scan ends where a written value does, if the limit allows for the value. -/
theorem Value.Fits.frameLength_encode {budget : Nat} {value : Value} (h : value.Fits budget)
    (room : value.encode.length ≤ limit) (more : Bytes) :
    frameLength limit (value.encode ++ more) = .ok (some value.encode.length) :=
  h.plain.frameLength_append room more

end StakeLedger.MsgPack
