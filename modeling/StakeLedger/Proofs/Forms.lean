/-
**The forms of a value.**

The format gives most values several forms: an integer may be written in any width that holds it,
signed or not, and a size may be written wider than it needs to be.  Here the forms of a value are
described rule by rule, one rule for each way in which a first byte announces what follows it.  The
rules know nothing of a budget; how deep a value is nested is described on its own.  The reader then
reads a value exactly from the forms of it, if the budget reaches for it.

Main definitions:

* `StakeLedger.MsgPack.Value.Form` — **the forms of a value**;
* `StakeLedger.MsgPack.Value.Within` — the values that a budget reaches for.

Main results:

* `StakeLedger.MsgPack.readValue_eq_ok_iff` — what is read, and from which bytes;
* `StakeLedger.MsgPack.decodeValue_eq_ok_iff_form` — **the bytes that are one value are its forms**;
* `StakeLedger.MsgPack.Value.Form.exists_item` — an array that has a form has items that have forms.
-/
import StakeLedger.Codec.Field
import StakeLedger.Proofs.Reading

set_option autoImplicit false

namespace StakeLedger.MsgPack

open Results

/-! ### The forms -/

/-- **The forms of a value.**  The items of an array, and the keys and values of a map, stand with
the forms that they are written in. -/
inductive Value.Form : Value → Bytes → Prop
  | nil {b : UInt8} (lead : Lead.ofByte b = .nil) : Form .nil [b]
  /-- The reserved first byte is taken for nil. -/
  | reserved {b : UInt8} (lead : Lead.ofByte b = .reserved) : Form .nil [b]
  | bool {b : UInt8} {value : Bool} (lead : Lead.ofByte b = .bool value) : Form (.bool value) [b]
  | small {b : UInt8} {n : Int} (lead : Lead.ofByte b = .small n) : Form (.int n) [b]
  | unsigned {b : UInt8} {field : Bytes} (lead : Lead.ofByte b = .unsigned field.length) :
      Form (.int field.toNat) (b :: field)
  | signed {b : UInt8} {field : Bytes} (lead : Lead.ofByte b = .signed field.length) :
      Form (.int field.toInt) (b :: field)
  | float32 {b : UInt8} {field : Bytes} (lead : Lead.ofByte b = .float32)
      (width : field.length = 4) : Form (.float32 (UInt32.ofNat field.toNat)) (b :: field)
  | float64 {b : UInt8} {field : Bytes} (lead : Lead.ofByte b = .float64)
      (width : field.length = 8) : Form (.float64 (UInt64.ofNat field.toNat)) (b :: field)
  | str {b : UInt8} {size : Size} {field body : Bytes} (lead : Lead.ofByte b = .str size)
      (takes : size.Takes field body.length) : Form (.str body) (b :: (field ++ body))
  | bin {b : UInt8} {size : Size} {field body : Bytes} (lead : Lead.ofByte b = .bin size)
      (takes : size.Takes field body.length) : Form (.bin body) (b :: (field ++ body))
  | ext {b type : UInt8} {size : Size} {field body : Bytes} (lead : Lead.ofByte b = .ext size)
      (takes : size.Takes field body.length) :
      Form (.ext (Bytes.toInt [type]) body) (b :: (field ++ type :: body))
  | array {b : UInt8} {size : Size} {field : Bytes} {pieces : List (Value × Bytes)}
      (lead : Lead.ofByte b = .array size) (takes : size.Takes field pieces.length)
      (items : ∀ piece ∈ pieces, Form piece.1 piece.2) :
      Form (.array (pieces.map Prod.fst)) (b :: (field ++ pieces.flatMap Prod.snd))
  | map {b : UInt8} {size : Size} {field : Bytes} {pieces : List ((Value × Value) × Bytes × Bytes)}
      (lead : Lead.ofByte b = .map size) (takes : size.Takes field pieces.length)
      (keys : ∀ piece ∈ pieces, Form piece.1.1 piece.2.1)
      (values : ∀ piece ∈ pieces, Form piece.1.2 piece.2.2) :
      Form (.map (pieces.map Prod.fst))
        (b :: (field ++ pieces.flatMap fun piece => piece.2.1 ++ piece.2.2))

/-- The values that a budget reaches for. -/
inductive Value.Within : (budget : Nat) → Value → Prop
  | nil {budget : Nat} : Within (budget + 1) .nil
  | bool {budget : Nat} (b : Bool) : Within (budget + 1) (.bool b)
  | int {budget : Nat} (n : Int) : Within (budget + 1) (.int n)
  | float32 {budget : Nat} (bits : UInt32) : Within (budget + 1) (.float32 bits)
  | float64 {budget : Nat} (bits : UInt64) : Within (budget + 1) (.float64 bits)
  | str {budget : Nat} (bytes : Bytes) : Within (budget + 3) (.str bytes)
  | bin {budget : Nat} (bytes : Bytes) : Within (budget + 2) (.bin bytes)
  | array {budget : Nat} {items : List Value} (items_within : ∀ item ∈ items, Within budget item) :
      Within (budget + 2) (.array items)
  | map {budget : Nat} {entries : List (Value × Value)}
      (keys_within : ∀ entry ∈ entries, Within budget entry.1)
      (values_within : ∀ entry ∈ entries, Within budget entry.2) :
      Within (budget + 2) (.map entries)
  | ext {budget : Nat} (type : Int) (data : Bytes) : Within (budget + 3) (.ext type data)

/-! ### Readings in a row -/

section Readers

variable {α φ : Type} {read : Bytes → Except ReadFault (α × Bytes)} {P : α → φ → Prop}
variable {spelled : φ → Bytes} {bytes rest : Bytes}

/-- A reader whose results are all read from something that spells them. -/
def ReadsFrom (P : α → φ → Prop) (spelled : φ → Bytes)
    (read : Bytes → Except ReadFault (α × Bytes)) : Prop :=
  ∀ ⦃bytes rest : Bytes⦄ ⦃result : α⦄, read bytes = .ok (result, rest) →
    ∃ form, P result form ∧ bytes = spelled form ++ rest

theorem ReadsFrom.pair (h : ReadsFrom P spelled read) :
    ReadsFrom (fun (entry : α × α) (forms : φ × φ) => P entry.1 forms.1 ∧ P entry.2 forms.2)
      (fun forms => spelled forms.1 ++ spelled forms.2) (readPair read) := by
  rintro bytes rest ⟨first, second⟩ hread
  obtain ⟨middle, hfirst, hsecond⟩ := readPair_eq_ok_iff.1 hread
  obtain ⟨front, hfront, rfl⟩ := h hfirst
  obtain ⟨back, hback, rfl⟩ := h hsecond
  exact ⟨(front, back), ⟨hfront, hback⟩, (List.append_assoc _ _ _).symm⟩

theorem ReadsFrom.many (h : ReadsFrom P spelled read) {n : Nat} {items : List α}
    (hread : readMany read n bytes = .ok (items, rest)) :
    ∃ pieces : List (α × φ), (∀ piece ∈ pieces, P piece.1 piece.2) ∧ pieces.length = n ∧
      items = pieces.map Prod.fst ∧
        bytes = pieces.flatMap (fun piece => spelled piece.2) ++ rest := by
  induction n generalizing bytes items with
  | zero =>
      cases hread
      exact ⟨[], fun _ hpiece => absurd hpiece List.not_mem_nil, rfl, rfl, rfl⟩
  | succ n ih =>
      obtain ⟨item, middle, others, hitem, hothers, rfl⟩ := readMany_succ_eq_ok_iff.1 hread
      obtain ⟨form, hform, rfl⟩ := h hitem
      obtain ⟨pieces, hpieces, rfl, rfl, rfl⟩ := ih hothers
      refine ⟨(item, form) :: pieces, List.forall_mem_cons.2 ⟨hform, hpieces⟩, rfl, rfl, ?_⟩
      rw [List.flatMap_cons, List.append_assoc]

/-- A container is read from what gives its size and what spells its items. -/
theorem ReadsFrom.container (h : ReadsFrom P spelled read) {size : Size} {make : List α → Value}
    {value : Value}
    (accepted : (do
      let (n, rest) ← size.read bytes
      let (items, rest) ← readMany read n rest
      return (make items, rest) : Except ReadFault (Value × Bytes)) = .ok (value, rest)) :
    ∃ field, ∃ pieces : List (α × φ), size.Takes field pieces.length ∧
      (∀ piece ∈ pieces, P piece.1 piece.2) ∧ value = make (pieces.map Prod.fst) ∧
        bytes = field ++ (pieces.flatMap (fun piece => spelled piece.2) ++ rest) := by
  obtain ⟨⟨n, middle⟩, hsize, hinner⟩ := bind_eq_ok.1 accepted
  obtain ⟨⟨items, back⟩, hitems, hresult⟩ := bind_eq_ok.1 hinner
  obtain ⟨field, rfl, htakes⟩ := Size.read_eq_ok_iff.1 hsize
  obtain ⟨pieces, hpieces, rfl, rfl, rfl⟩ := h.many hitems
  cases hresult
  exact ⟨field, pieces, htakes, hpieces, rfl, rfl⟩

/-- Items are read one after the other from what spells them. -/
theorem readMany_pieces {pieces : List (α × φ)}
    (reads : ∀ piece ∈ pieces, ∀ rest, read (spelled piece.2 ++ rest) = .ok (piece.1, rest))
    (rest : Bytes) :
    readMany read pieces.length (pieces.flatMap (fun piece => spelled piece.2) ++ rest) =
      .ok (pieces.map Prod.fst, rest) := by
  induction pieces with
  | nil => rfl
  | cons piece others ih =>
      obtain ⟨hfirst, hrest⟩ := List.forall_mem_cons.1 reads
      rw [List.flatMap_cons, List.append_assoc]
      exact readMany_succ_eq_ok_iff.2 ⟨piece.1, _, _, hfirst _, ih hrest, rfl⟩

end Readers

/-! ### The reader of values -/

variable {budget : Nat} {value : Value} {bytes rest : Bytes}

/-- **A value is read from each of its forms**, if the budget reaches for it. -/
theorem Value.Form.readValue_eq (h : value.Form bytes) (within : value.Within budget)
    (rest : Bytes) : readValue budget (bytes ++ rest) = .ok (value, rest) := by
  induction h generalizing budget rest with
  | nil lead | reserved lead | bool lead | small lead =>
      cases within
      rw [List.singleton_append, readValue, lead]
  | @unsigned b field lead =>
      cases within
      rw [List.cons_append, readValue, lead]
      exact bind_eq_ok.2 ⟨_, readNat_append field rest, rfl⟩
  | @signed b field lead =>
      cases within
      rw [List.cons_append, readValue, lead]
      exact bind_eq_ok.2 ⟨_, readField_append field rest, rfl⟩
  | @float32 b field lead width | @float64 b field lead width =>
      cases within
      have hread := readNat_append field rest
      rw [width] at hread
      rw [List.cons_append, readValue, lead]
      exact bind_eq_ok.2 ⟨_, hread, rfl⟩
  | @str b size field body lead takes =>
      cases within with
      | @str budget =>
          have hread := read_sized takes .str 2 (budget + 2) rest
          rw [if_pos (Nat.le_add_left 2 budget)] at hread
          rw [List.cons_append, readValue, lead]
          exact hread
  | @bin b size field body lead takes =>
      cases within with
      | @bin budget =>
          have hread := read_sized takes .bin 1 (budget + 1) rest
          rw [if_pos (Nat.le_add_left 1 budget)] at hread
          rw [List.cons_append, readValue, lead]
          exact hread
  | @ext b type size field body lead takes =>
      cases within with
      | @ext budget =>
          have hread := read_typed takes type (fun type data => .ext type.toInt data) (budget + 2)
            rest
          rw [if_pos (Nat.le_add_left 2 budget)] at hread
          rw [List.cons_append, readValue, lead]
          exact hread
  | @array b size field pieces lead takes _ ih =>
      cases within with
      | @array inner _ items_within =>
          have hitems := @readMany_pieces _ _ (readValue inner) id pieces
            (fun piece hpiece => ih piece hpiece (items_within _ (List.mem_map_of_mem hpiece))) rest
          rw [List.cons_append, List.append_assoc, readValue, lead]
          exact bind_eq_ok.2 ⟨_, Size.read_append takes _, bind_eq_ok.2 ⟨_, hitems, rfl⟩⟩
  | @map b size field pieces lead takes _ _ ih_keys ih_values =>
      cases within with
      | @map inner _ keys_within values_within =>
          have hpair : ∀ piece ∈ pieces, ∀ rest,
              readPair (readValue inner) (piece.2.1 ++ piece.2.2 ++ rest) =
                .ok (piece.1, rest) := by
            intro piece hpiece rest
            have hmem := List.mem_map_of_mem (f := Prod.fst) hpiece
            rw [List.append_assoc]
            exact readPair_eq_ok_iff.2 ⟨_, ih_keys piece hpiece (keys_within _ hmem) _,
              ih_values piece hpiece (values_within _ hmem) rest⟩
          have hentries := @readMany_pieces _ _ _ (fun forms : Bytes × Bytes => forms.1 ++ forms.2)
            pieces hpair rest
          rw [List.cons_append, List.append_assoc, readValue, lead]
          exact bind_eq_ok.2 ⟨_, Size.read_append takes _, bind_eq_ok.2 ⟨_, hentries, rfl⟩⟩

/-- Without a budget no container is read. -/
theorem read_shallow_ne_ok (size : Size) (bytes : Bytes) (result : Value × Bytes) :
    (do
      let _ ← size.read bytes
      throw .tooDeep : Except ReadFault (Value × Bytes)) ≠ .ok result := by
  intro h
  obtain ⟨-, -, hthrown⟩ := bind_eq_ok.1 h
  cases hthrown

/-- **A value is read from nothing but its forms**, and only if the budget reaches for it. -/
theorem readsFrom_readValue (budget : Nat) :
    ReadsFrom (fun value front => value.Form front ∧ value.Within budget) id
      (readValue budget) := by
  -- a container hands on a budget that is smaller by two
  induction budget using Nat.strongRecOn with
  | ind budget ih =>
      intro bytes rest value h
      cases budget with
      | zero => cases h
      | succ budget =>
          cases bytes with
          | nil => cases h
          | cons b bytes =>
              rw [readValue] at h
              revert h
              cases hlead : Lead.ofByte b with
              | nil =>
                  intro h
                  cases h
                  exact ⟨[b], ⟨.nil hlead, .nil⟩, rfl⟩
              | reserved =>
                  intro h
                  cases h
                  exact ⟨[b], ⟨.reserved hlead, .nil⟩, rfl⟩
              | bool on =>
                  intro h
                  cases h
                  exact ⟨[b], ⟨.bool hlead, .bool on⟩, rfl⟩
              | small n =>
                  intro h
                  cases h
                  exact ⟨[b], ⟨.small hlead, .int n⟩, rfl⟩
              | unsigned width =>
                  intro h
                  obtain ⟨⟨n, back⟩, hn, hresult⟩ := bind_eq_ok.1 h
                  obtain ⟨field, rfl, rfl, rfl⟩ := readNat_eq_ok_iff.1 hn
                  cases hresult
                  exact ⟨b :: field, ⟨.unsigned hlead, .int _⟩, rfl⟩
              | signed width =>
                  intro h
                  obtain ⟨⟨field, back⟩, hfield, hresult⟩ := bind_eq_ok.1 h
                  obtain ⟨rfl, rfl⟩ := readField_eq_ok_iff.1 hfield
                  cases hresult
                  exact ⟨b :: field, ⟨.signed hlead, .int _⟩, rfl⟩
              | float32 =>
                  intro h
                  obtain ⟨⟨bits, back⟩, hbits, hresult⟩ := bind_eq_ok.1 h
                  obtain ⟨field, rfl, hwidth, rfl⟩ := readNat_eq_ok_iff.1 hbits
                  cases hresult
                  exact ⟨b :: field, ⟨.float32 hlead hwidth, .float32 _⟩, rfl⟩
              | float64 =>
                  intro h
                  obtain ⟨⟨bits, back⟩, hbits, hresult⟩ := bind_eq_ok.1 h
                  obtain ⟨field, rfl, hwidth, rfl⟩ := readNat_eq_ok_iff.1 hbits
                  cases hresult
                  exact ⟨b :: field, ⟨.float64 hlead hwidth, .float64 _⟩, rfl⟩
              | str size =>
                  intro h
                  obtain ⟨field, body, htakes, hunits, rfl, rfl⟩ := exists_of_read_sized h
                  obtain ⟨inner, rfl⟩ := Nat.exists_eq_add_of_le' hunits
                  exact ⟨_, ⟨.str hlead htakes, .str body⟩, by simp only [id, List.cons_append]⟩
              | bin size =>
                  intro h
                  obtain ⟨field, body, htakes, hunits, rfl, rfl⟩ := exists_of_read_sized h
                  obtain ⟨inner, rfl⟩ := Nat.exists_eq_add_of_le' hunits
                  exact ⟨_, ⟨.bin hlead htakes, .bin body⟩, by simp only [id, List.cons_append]⟩
              | ext size =>
                  intro h
                  obtain ⟨field, type, body, htakes, hunits, rfl, rfl⟩ :=
                    @exists_of_read_typed bytes rest budget size
                      (fun type data => .ext type.toInt data) value h
                  obtain ⟨inner, rfl⟩ := Nat.exists_eq_add_of_le' hunits
                  exact ⟨_, ⟨.ext hlead htakes, .ext _ body⟩, by simp only [id, List.cons_append]⟩
              | array size =>
                  intro h
                  cases budget with
                  | zero => exact absurd h (read_shallow_ne_ok size bytes _)
                  | succ inner =>
                      obtain ⟨field, pieces, htakes, hpieces, rfl, rfl⟩ :=
                        (ih inner (by omega)).container h
                      refine ⟨_, ⟨.array hlead htakes fun piece hpiece => (hpieces piece hpiece).1,
                        .array ?_⟩, ?_⟩
                      · exact List.forall_mem_map.2 fun piece hpiece => (hpieces piece hpiece).2
                      · simp only [id, List.cons_append, List.append_assoc]
              | map size =>
                  intro h
                  cases budget with
                  | zero => exact absurd h (read_shallow_ne_ok size bytes _)
                  | succ inner =>
                      obtain ⟨field, pieces, htakes, hpieces, rfl, rfl⟩ :=
                        (ih inner (by omega)).pair.container h
                      refine ⟨_, ⟨.map hlead htakes (fun piece hpiece => (hpieces piece hpiece).1.1)
                        fun piece hpiece => (hpieces piece hpiece).2.1, .map ?_ ?_⟩, ?_⟩
                      · exact List.forall_mem_map.2 fun piece hpiece => (hpieces piece hpiece).1.2
                      · exact List.forall_mem_map.2 fun piece hpiece => (hpieces piece hpiece).2.2
                      · simp only [id, List.cons_append, List.append_assoc]

/-- **What is read, and from which bytes.** -/
theorem readValue_eq_ok_iff :
    readValue budget bytes = .ok (value, rest) ↔
      ∃ front, value.Form front ∧ value.Within budget ∧ bytes = front ++ rest := by
  constructor
  · intro h
    obtain ⟨front, ⟨hform, hwithin⟩, hbytes⟩ := readsFrom_readValue budget h
    exact ⟨front, hform, hwithin, hbytes⟩
  · rintro ⟨front, hform, hwithin, rfl⟩
    exact hform.readValue_eq hwithin rest

theorem decodeValue_eq_ok_iff :
    decodeValue bytes = .ok value ↔ readValue depthBudget bytes = .ok (value, []) := by
  unfold decodeValue
  split
  · next fault hread => simp [hread]
  · next found hread => simp [hread]
  · next found rest hrest hread =>
      have hne : rest ≠ [] := fun hnil => hrest hnil
      simp [hread, hne]

/-- **The bytes that are one value are its forms**, if it is nested no deeper than is allowed. -/
theorem decodeValue_eq_ok_iff_form :
    decodeValue bytes = .ok value ↔ value.Form bytes ∧ value.Within depthBudget := by
  rw [decodeValue_eq_ok_iff, readValue_eq_ok_iff]
  constructor
  · rintro ⟨front, hform, hwithin, rfl⟩
    rw [List.append_nil]
    exact ⟨hform, hwithin⟩
  · rintro ⟨hform, hwithin⟩
    exact ⟨bytes, hform, hwithin, (List.append_nil bytes).symm⟩

/-! ### Arrays -/

variable {items : List Value}

/-- The items of an array that has a form have forms. -/
theorem Value.Form.exists_item (h : (Value.array items).Form bytes) :
    ∀ item ∈ items, ∃ front, item.Form front := by
  cases h with
  | array lead takes pieces_form =>
      intro item hitem
      obtain ⟨piece, hpiece, rfl⟩ := List.mem_map.1 hitem
      exact ⟨piece.2, pieces_form piece hpiece⟩

end StakeLedger.MsgPack
