/-
**What is written as a value reads back.**

A value has a written form if its numbers are in the range of the format and its sizes fit into four
bytes.  The reader spends a budget on the way down into a value, so that what it reads back also
depends on how deep the value is nested.  Both conditions are one predicate here, which follows the
constructors of values and hands the budget on as the reader does.  What is written is then one of
the forms of the value, and read like all of them.

Main definitions:

* `StakeLedger.MsgPack.Heads` — the first bytes of a value that carry its size;
* `StakeLedger.MsgPack.Value.Fits` — **values with a written form that a budget suffices for**.

Main results:

* `StakeLedger.MsgPack.Value.Fits.form` — what a value is written as is one of its forms;
* `StakeLedger.MsgPack.readValue_encode` — what is written is read, whatever follows it;
* `StakeLedger.MsgPack.decodeValue_encode` — a value that stands alone.
-/
import StakeLedger.Proofs.Forms
import StakeLedger.Proofs.Integers

set_option autoImplicit false

namespace StakeLedger.MsgPack

open Results

/-! ### First bytes -/

theorem ofByte_nonneg : ∀ n < 0x80, Lead.ofByte (UInt8.ofNat n) = .small n := by decide

theorem ofByte_negative :
    ∀ n < 0x20, Lead.ofByte (UInt8.ofNat (0xe0 + n)) = .small (n - 0x20) := by decide

theorem ofByte_str : ∀ n < 0x20, Lead.ofByte (UInt8.ofNat (0xa0 + n)) = .str (.inline n) := by
  decide

theorem ofByte_array : ∀ n < 0x10, Lead.ofByte (UInt8.ofNat (0x90 + n)) = .array (.inline n) := by
  decide

theorem ofByte_map : ∀ n < 0x10, Lead.ofByte (UInt8.ofNat (0x80 + n)) = .map (.inline n) := by
  decide

/-! ### Heads -/

/-- Bytes that start with what announces a size in the way of `kind`, and give the size `n`. -/
def Heads (kind : Size → Lead) (n : Nat) (head : Bytes) : Prop :=
  ∃ b field size, head = b :: field ∧ Lead.ofByte b = kind size ∧ size.Takes field n

section Heads

variable {kind : Size → Lead} {b : UInt8} {width n : Nat}

theorem heads_inline (hlead : Lead.ofByte b = kind (.inline n)) : Heads kind n [b] :=
  ⟨b, [], .inline n, rfl, hlead, rfl, rfl⟩

theorem heads_field (hlead : Lead.ofByte b = kind (.field width)) (fits : n < Nat.pow 256 width) :
    Heads kind n (headField b width n) :=
  ⟨b, _, .field width, rfl, hlead, Bytes.length_ofNat _ _, Bytes.toNat_ofNat_of_lt fits⟩

theorem heads_strHead (fits : n < 0x100000000) : Heads .str n (strHead n) := by
  unfold strHead
  split
  · next h => exact heads_inline (ofByte_str n h)
  split
  · next h => exact heads_field rfl h
  split
  · next h => exact heads_field rfl h
  · exact heads_field rfl fits

theorem heads_binHead (fits : n < 0x100000000) : Heads .bin n (binHead n) := by
  unfold binHead
  split
  · next h => exact heads_field rfl h
  split
  · next h => exact heads_field rfl h
  · exact heads_field rfl fits

theorem heads_arrayHead (fits : n < 0x100000000) : Heads .array n (arrayHead n) := by
  unfold arrayHead
  split
  · next h => exact heads_inline (ofByte_array n h)
  split
  · next h => exact heads_field rfl h
  · exact heads_field rfl fits

theorem heads_mapHead (fits : n < 0x100000000) : Heads .map n (mapHead n) := by
  unfold mapHead
  split
  · next h => exact heads_inline (ofByte_map n h)
  split
  · next h => exact heads_field rfl h
  · exact heads_field rfl fits

/-- The first byte alone announces data of one of five sizes. -/
theorem heads_extHead (fits : n < 0x100000000) : Heads .ext n (extHead n) := by
  unfold extHead
  iterate 5
    split
    · next h =>
        subst h
        exact heads_inline rfl
  split
  · next h => exact heads_field rfl h
  split
  · next h => exact heads_field rfl h
  · exact heads_field rfl fits

end Heads

/-! ### Integers -/

section Integers

variable {b : UInt8} {width : Nat} {n : Int}

theorem form_unsigned (hlead : Lead.ofByte b = .unsigned width) (nonneg : 0 ≤ n)
    (fits : n < (Nat.pow 256 width : Nat)) :
    (Value.int n).Form (b :: Bytes.ofInt width n) := by
  have hform := @Value.Form.unsigned b (Bytes.ofInt width n) (by rwa [Bytes.length_ofInt])
  have hvalue : (Bytes.toNat (Bytes.ofInt width n) : Int) = n := by
    rw [Bytes.ofInt_of_nonneg nonneg fits, Bytes.toNat_ofNat_of_lt (by omega)]
    omega
  rwa [hvalue] at hform

theorem form_signed (hlead : Lead.ofByte b = .signed (width + 1))
    (least : -(128 * Nat.pow 256 width : Nat) ≤ n)
    (greatest : n < (128 * Nat.pow 256 width : Nat)) :
    (Value.int n).Form (b :: Bytes.ofInt (width + 1) n) := by
  have hform := @Value.Form.signed b (Bytes.ofInt (width + 1) n) (by rwa [Bytes.length_ofInt])
  rwa [Bytes.toInt_ofInt width least greatest] at hform

/-- The one byte of an integer between -32 and 127 holds it. -/
theorem ofByte_ofInt_one (least : -0x20 ≤ n) (greatest : n < 0x80) :
    ∃ b, Bytes.ofInt 1 n = [b] ∧ Lead.ofByte b = .small n := by
  refine ⟨UInt8.ofNat (n % 256).toNat, Bytes.ofInt_succ 0 n, ?_⟩
  by_cases hneg : n < 0
  · have hbyte : (n % 256).toNat = 0xe0 + (n + 0x20).toNat := by omega
    rw [hbyte, ofByte_negative _ (by omega)]
    congr 1
    omega
  · have hbyte : (n % 256).toNat = n.toNat := by omega
    rw [hbyte, ofByte_nonneg _ (by omega)]
    congr 1
    omega

/-- What an integer in the range of the format is written as is a form of it. -/
theorem form_intForm (least : -0x8000000000000000 ≤ n) (greatest : n < 0x10000000000000000) :
    (Value.int n).Form (intForm n) := by
  unfold intForm
  split
  · next nonneg =>
      split
      · next h =>
          obtain ⟨b, hbyte, hlead⟩ := ofByte_ofInt_one (by omega) h
          rw [hbyte]
          exact .small hlead
      split
      · next h => exact @form_unsigned _ 1 n rfl nonneg h
      split
      · next h => exact @form_unsigned _ 2 n rfl nonneg h
      split
      · next h => exact @form_unsigned _ 4 n rfl nonneg h
      · exact @form_unsigned _ 8 n rfl nonneg greatest
  · next negative =>
      split
      · next h =>
          obtain ⟨b, hbyte, hlead⟩ := ofByte_ofInt_one h (by omega)
          rw [hbyte]
          exact .small hlead
      split
      · next h => exact @form_signed _ 0 n rfl h (by omega)
      split
      · next h => exact @form_signed _ 1 n rfl h (by omega)
      split
      · next h => exact @form_signed _ 3 n rfl h (by omega)
      · exact @form_signed _ 7 n rfl least (by omega)

end Integers

/-! ### Values -/

/-- Values that the format has a form for, nested no deeper than a budget suffices for. -/
inductive Value.Fits : (budget : Nat) → Value → Prop
  | nil {budget : Nat} : Fits (budget + 1) .nil
  | bool {budget : Nat} (b : Bool) : Fits (budget + 1) (.bool b)
  | int {budget : Nat} {n : Int} (least : -0x8000000000000000 ≤ n)
      (greatest : n < 0x10000000000000000) : Fits (budget + 1) (.int n)
  | float32 {budget : Nat} (bits : UInt32) : Fits (budget + 1) (.float32 bits)
  | float64 {budget : Nat} (bits : UInt64) : Fits (budget + 1) (.float64 bits)
  /-- A string spells a text; other strings are written as binary data. -/
  | str {budget : Nat} {bytes : Bytes} (text : bytes.text?.isSome)
      (size : bytes.length < 0x100000000) : Fits (budget + 3) (.str bytes)
  | bin {budget : Nat} {bytes : Bytes} (size : bytes.length < 0x100000000) :
      Fits (budget + 2) (.bin bytes)
  | array {budget : Nat} {items : List Value} (size : items.length < 0x100000000)
      (items_fit : ∀ item ∈ items, Fits budget item) : Fits (budget + 2) (.array items)
  | map {budget : Nat} {entries : List (Value × Value)} (size : entries.length < 0x100000000)
      (keys_fit : ∀ entry ∈ entries, Fits budget entry.1)
      (values_fit : ∀ entry ∈ entries, Fits budget entry.2) : Fits (budget + 2) (.map entries)
  | ext {budget : Nat} {type : Int} {data : Bytes} (least : -0x80 ≤ type) (greatest : type < 0x80)
      (size : data.length < 0x100000000) : Fits (budget + 3) (.ext type data)

/-- The bytes of an entry of a map. -/
def Value.encodeEntry (entry : Value × Value) : Bytes := entry.1.encode ++ entry.2.encode

theorem Value.encodeItems_eq_flatMap (items : List Value) :
    encodeItems items = items.flatMap encode := by
  induction items with
  | nil => rfl
  | cons item rest ih => rw [encodeItems, ih, List.flatMap_cons]

theorem Value.encodeEntries_eq_flatMap (entries : List (Value × Value)) :
    encodeEntries entries = entries.flatMap encodeEntry := by
  induction entries with
  | nil => rfl
  | cons entry rest ih =>
      obtain ⟨key, value⟩ := entry
      rw [encodeEntries, ih, List.flatMap_cons, encodeEntry]

/-- An array has a form if its items have forms. -/
theorem Value.Form.array_items {b : UInt8} {size : Size} {field : Bytes} {items : List Value}
    {write : Value → Bytes} (lead : Lead.ofByte b = .array size)
    (takes : size.Takes field items.length) (h : ∀ item ∈ items, item.Form (write item)) :
    (Value.array items).Form (b :: (field ++ items.flatMap write)) := by
  have hform := @Value.Form.array b size field (items.map fun item => (item, write item)) lead
    (by rwa [List.length_map]) (List.forall_mem_map.2 h)
  rwa [List.map_map, List.flatMap_map, Function.comp_def, List.map_id'] at hform

/-- A map has a form if its keys and values have forms. -/
theorem Value.Form.map_entries {b : UInt8} {size : Size} {field : Bytes}
    {entries : List (Value × Value)} {write : Value → Bytes} (lead : Lead.ofByte b = .map size)
    (takes : size.Takes field entries.length)
    (keys : ∀ entry ∈ entries, entry.1.Form (write entry.1))
    (values : ∀ entry ∈ entries, entry.2.Form (write entry.2)) :
    (Value.map entries).Form
      (b :: (field ++ entries.flatMap fun entry => write entry.1 ++ write entry.2)) := by
  have hform := @Value.Form.map b size field
    (entries.map fun entry => (entry, write entry.1, write entry.2)) lead
    (by rwa [List.length_map]) (List.forall_mem_map.2 keys) (List.forall_mem_map.2 values)
  rwa [List.map_map, List.flatMap_map, Function.comp_def, List.map_id'] at hform

/-- **What a value is written as is a form of it.** -/
theorem Value.Fits.form {budget : Nat} {value : Value} (h : value.Fits budget) :
    value.Form value.encode := by
  induction h with
  | nil => exact .nil rfl
  | bool b => cases b <;> exact .bool rfl
  | int least greatest => exact form_intForm least greatest
  | float32 bits =>
      have hform := @Form.float32 0xca (Bytes.ofNat 4 bits.toNat) rfl (Bytes.length_ofNat _ _)
      rwa [Bytes.toNat_ofNat_of_lt bits.toNat_lt, UInt32.ofNat_toNat] at hform
  | float64 bits =>
      have hform := @Form.float64 0xcb (Bytes.ofNat 8 bits.toNat) rfl (Bytes.length_ofNat _ _)
      rwa [Bytes.toNat_ofNat_of_lt bits.toNat_lt, UInt64.ofNat_toNat] at hform
  | @str budget bytes text size =>
      obtain ⟨b, field, how, hhead, hlead, takes⟩ := heads_strHead size
      rw [encode, textHead, if_pos text, hhead]
      exact .str hlead takes
  | @bin budget bytes size =>
      obtain ⟨b, field, how, hhead, hlead, takes⟩ := heads_binHead size
      rw [encode, hhead]
      exact .bin hlead takes
  | @array budget items size _ ih =>
      obtain ⟨b, field, how, hhead, hlead, takes⟩ := heads_arrayHead size
      rw [encode, encodeItems_eq_flatMap, hhead]
      exact .array_items hlead takes ih
  | @map budget entries size _ _ ih_keys ih_values =>
      obtain ⟨b, field, how, hhead, hlead, takes⟩ := heads_mapHead size
      rw [encode, encodeEntries_eq_flatMap, hhead]
      exact .map_entries hlead takes ih_keys ih_values
  | @ext budget type data least greatest size =>
      obtain ⟨b, field, how, hhead, hlead, takes⟩ := heads_extHead size
      have hbyte : Bytes.ofInt 1 type = [UInt8.ofNat (type % 256).toNat] := Bytes.ofInt_succ 0 type
      have htype := Bytes.toInt_ofInt 0 least greatest
      have hform := @Form.ext b (UInt8.ofNat (type % 256).toNat) how field data hlead takes
      rw [hbyte] at htype
      rw [htype] at hform
      rw [encode, hhead, hbyte, List.append_assoc (b :: field)]
      exact hform

/-- The budget that a value fits into reaches for it. -/
theorem Value.Fits.within {budget : Nat} {value : Value} (h : value.Fits budget) :
    value.Within budget := by
  induction h with
  | nil => exact .nil
  | bool b => exact .bool b
  | int => exact .int _
  | float32 bits => exact .float32 bits
  | float64 bits => exact .float64 bits
  | str => exact .str _
  | bin => exact .bin _
  | array _ _ ih => exact .array ih
  | map _ _ _ ih_keys ih_values => exact .map ih_keys ih_values
  | ext => exact .ext _ _

/-- **What is written is read, whatever follows it.** -/
theorem readValue_encode {budget : Nat} {value : Value} (h : value.Fits budget) (rest : Bytes) :
    readValue budget (value.encode ++ rest) = .ok (value, rest) :=
  h.form.readValue_eq h.within rest

/-- A value that stands alone reads back. -/
theorem decodeValue_encode {value : Value} (h : value.Fits depthBudget) :
    decodeValue value.encode = .ok value :=
  decodeValue_eq_ok_iff_form.2 ⟨h.form, h.within⟩

end StakeLedger.MsgPack
