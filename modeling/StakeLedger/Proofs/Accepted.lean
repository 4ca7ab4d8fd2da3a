/-
**The records that are read as parts.**

A record is one value with nothing after it.  Here it is said, field by field, which values are the
records of a part, and a byte string is read as the part exactly if it is a form of one of them.
Whether the form is the shortest one is not asked: numbers and sizes may be written wider than they
need to be.  What is read can be recorded again; in particular no amount that is read is negative,
and the slots are in order and hold something each.

Main definitions:

* `StakeLedger.CoinPart.Record`, `StakeLedger.StakePart.Record`,
  `StakeLedger.DelegationPart.Record` — **the records of a part**.

Main results:

* `StakeLedger.CoinPart.ofValue_eq_ok_iff`, `StakeLedger.StakePart.ofValue_eq_ok_iff`,
  `StakeLedger.DelegationPart.ofValue_eq_ok_iff` — the values that are read as a part;
* `StakeLedger.ofBytes_eq_ok_iff_record` — **the bytes that are read as a part**.
-/
import Mathlib.Data.List.Forall2
import StakeLedger.Proofs.Fields
import StakeLedger.Proofs.Ranges

set_option autoImplicit false

namespace StakeLedger

open Results
open MsgPack (Value depthBudget)

/-- The items of a list that is read are what its entries are read as, one for one. -/
theorem Results.mapM_eq_ok_iff {ε α β : Type} {read : β → Except ε α} {entries : List β}
    {items : List α} :
    entries.mapM read = .ok items ↔
      List.Forall₂ (fun item entry => read entry = .ok item) items entries := by
  induction entries generalizing items with
  | nil =>
      rw [List.forall₂_nil_right_iff]
      constructor
      · intro h
        cases h
        rfl
      · rintro rfl
        rfl
  | cons entry rest ih =>
      rw [List.mapM_cons, bind_eq_ok, List.forall₂_cons_right_iff]
      constructor
      · rintro ⟨item, hitem, h⟩
        obtain ⟨others, hothers, hitems⟩ := bind_eq_ok.1 h
        cases hitems
        exact ⟨item, others, hitem, ih.1 hothers, rfl⟩
      · rintro ⟨item, others, hitem, hothers, rfl⟩
        exact ⟨item, hitem, bind_eq_ok.2 ⟨others, ih.2 hothers, rfl⟩⟩

/-- What an item that is read from an entry has from it holds of all items. -/
theorem Results.forall_items {α β : Type} {R : α → β → Prop} {P : α → Prop} {Q : β → Prop}
    {items : List α} {entries : List β} (h : List.Forall₂ R items entries)
    (all : ∀ entry ∈ entries, Q entry) (yields : ∀ item entry, R item entry → Q entry → P item) :
    ∀ item ∈ items, P item := by
  induction h with
  | nil => exact nofun
  | cons hfirst _ ih =>
      obtain ⟨hentry, hrest⟩ := List.forall_mem_cons.1 all
      exact List.forall_mem_cons.2 ⟨yields _ _ hfirst hentry, ih hrest⟩

/-- The version at the front of a record. -/
theorem readVersion_eq_ok_iff {value : Value} {version : Nat} :
    readVersion value = .ok version ↔ value = .ofNat version := by
  rw [readVersion, mapError_eq_ok, Field.readNat_eq_ok_iff]

/-- A form of a value that is read as a part is read as the part. -/
theorem decoded_eq_ok_iff {α : Type} {ofValue : Value → Except LedgerError α}
    {Record : α → Value → Prop}
    (accepts : ∀ value part, ofValue value = .ok part ↔ Record part value)
    (within : ∀ value part, Record part value → value.Within depthBudget) {bytes : Bytes}
    {part : α} :
    (do ofValue (← (decodeValue bytes).mapError .codec) : Except LedgerError α) = .ok part ↔
      ∃ value, value.Form bytes ∧ Record part value := by
  rw [bind_eq_ok]
  constructor
  · rintro ⟨value, hvalue, hpart⟩
    obtain ⟨hform, -⟩ := MsgPack.decodeValue_eq_ok_iff_form.1 (mapError_eq_ok.1 hvalue)
    exact ⟨value, hform, (accepts value part).1 hpart⟩
  · rintro ⟨value, hform, hrecord⟩
    refine ⟨value, mapError_eq_ok.2 ?_, (accepts value part).2 hrecord⟩
    exact MsgPack.decodeValue_eq_ok_iff_form.2 ⟨hform, within value part hrecord⟩

/-! ### Amounts -/

namespace Field

variable {value : Value} {n : Int} {budget : Nat}

theorem AmountForm.within (h : AmountForm n value) : value.Within (budget + 3) := by
  cases h with
  | int => exact .int n
  | ext => exact .ext _ _

theorem AmountForm.inRange (h : AmountForm n value) (ranged : value.Ranged) : Amount.InRange n :=
  inRange_of_readAmount ranged ((@readAmount_eq_ok_iff "" value n).2 h)

theorem le_maxHeight_of_ranged {n : Nat} (h : (Value.ofNat n).Ranged) : n ≤ maxHeight := by
  cases h with
  | int least greatest =>
      have hmax : maxHeight = 0xffffffffffffffff := rfl
      omega

end Field

/-! ### Coin parts -/

namespace CoinPart

theorem Role.ofCode?_eq_some_iff {code : UInt8} {role : Role} :
    ofCode? code = some role ↔ code = role.code := by
  constructor
  · intro h
    unfold ofCode? at h
    split at h
    · next hcode =>
        cases h
        exact hcode
    split at h
    · next hcode =>
        cases h
        exact hcode
    split at h
    · next hcode =>
        cases h
        exact hcode
    · cases h
  · rintro rfl
    exact ofCode?_code role

/-- The records `[0, role, flags, balance]` of a coin part, whose balance is not negative. -/
inductive Record (part : CoinPart) : Value → Prop
  | mk {balance : Value} (balance_form : Field.AmountForm part.balance balance)
      (nonneg : 0 ≤ part.balance) :
      Record part (.array [.ofNat 0, .ofNat part.role.code.toNat, .ofNat part.flags.toNat, balance])

variable {part : CoinPart} {value role flags balance : Value}

theorem ofFields_eq_ok_iff :
    ofFields role flags balance = .ok part ↔
      role = .ofNat part.role.code.toNat ∧ flags = .ofNat part.flags.toNat ∧
        Field.AmountForm part.balance balance ∧ 0 ≤ part.balance := by
  constructor
  · intro h
    obtain ⟨code, hcode, h⟩ := bind_eq_ok.1 h
    split at h
    · next found hfound =>
        simp only [bind_eq_ok, throw_bind, refused_or_eq_ok] at h
        obtain ⟨byte, hflags, amount, hamount, hsign, hpart⟩ := h
        cases hpart
        rw [Role.ofCode?_eq_some_iff.1 hfound] at hcode
        exact ⟨Field.readByte_eq_ok_iff.1 hcode, Field.readByte_eq_ok_iff.1 hflags,
          Field.readAmount_eq_ok_iff.1 hamount, Int.not_lt.1 hsign⟩
    · exact absurd h (throw_ne_ok _ _)
  · rintro ⟨rfl, rfl, hamount, hsign⟩
    simp only [ofFields, Field.readByte_toNat, ok_bind, Role.ofCode?_code,
      Field.readAmount_eq_ok_iff.2 hamount, if_neg (Int.not_lt.2 hsign), pure_eq_ok]

/-- **The values that are read as a coin part are its records.** -/
theorem ofValue_eq_ok_iff : ofValue value = .ok part ↔ part.Record value := by
  constructor
  · intro h
    obtain ⟨items, hitems, hrest⟩ := bind_eq_ok.1 h
    rw [Field.readArray_eq_ok_iff.1 (mapError_eq_ok.1 hitems)]
    split at hrest
    · simp only [bind_eq_ok, throw_bind, refused_or_eq_ok, mapError_eq_ok] at hrest
      obtain ⟨found, hfound, hversion, hfields⟩ := hrest
      obtain ⟨rfl, rfl, hamount, hsign⟩ := ofFields_eq_ok_iff.1 hfields
      rw [readVersion_eq_ok_iff.1 hfound, Decidable.not_not.1 hversion]
      exact .mk hamount hsign
    · exact absurd hrest (throw_ne_ok _ _)
  · rintro ⟨hamount, hsign⟩
    have hfields := ofFields_eq_ok_iff.2 ⟨rfl, rfl, hamount, hsign⟩
    simp only [ofValue, Field.readArray, mapError_ok, ok_bind, readVersion_ofNat, version, ne_eq,
      not_true_eq_false, if_false, hfields]

theorem Record.within (h : part.Record value) : value.Within depthBudget := by
  cases h with
  | mk balance_form nonneg =>
      refine .array ?_
      simp only [List.forall_mem_cons]
      exact ⟨.int _, .int _, .int _, balance_form.within, nofun⟩

/-- **The bytes that are read as a coin part are the forms of its records.** -/
theorem ofBytes_eq_ok_iff {bytes : Bytes} :
    ofBytes bytes = .ok part ↔ ∃ value, value.Form bytes ∧ part.Record value :=
  decoded_eq_ok_iff (fun _ _ => ofValue_eq_ok_iff) fun _ _ => Record.within

/-- What is read as a coin part can be recorded again. -/
theorem recordable_of_ofBytes {bytes : Bytes} (h : ofBytes bytes = .ok part) : part.Recordable := by
  obtain ⟨value, hform, hrecord⟩ := ofBytes_eq_ok_iff.1 h
  have hranged := hform.ranged
  cases hrecord with
  | mk balance_form nonneg =>
      cases hranged with
      | array items_ranged =>
          simp only [List.forall_mem_cons] at items_ranged
          obtain ⟨-, -, -, hbalance, -⟩ := items_ranged
          exact ⟨nonneg, (balance_form.inRange hbalance).2⟩

end CoinPart

/-! ### Stake parts -/

namespace StakePart

/-- The entries `[amount, height]` of a slot. -/
inductive SlotEntry (slot : Slot) : Value → Prop
  | mk {amount : Value} (amount_form : Field.AmountForm slot.amount amount) :
      SlotEntry slot (.array [amount, .ofNat slot.unlockHeight])

/-- The records of a stake part: `[0, stake, unstake, height]`, and `[1, stake, entries]` with the
entries of slots that are in order and hold something each.  The amounts are not negative, and all
of them together are an amount. -/
inductive Record : StakePart → Value → Prop
  | single {stake unstake : Int} {height : Nat} {stakeField unstakeField : Value}
      (stake_form : Field.AmountForm stake stakeField)
      (unstake_form : Field.AmountForm unstake unstakeField) (stake_nonneg : 0 ≤ stake)
      (unstake_nonneg : 0 ≤ unstake) (in_range : stake + unstake ≤ Amount.greatest) :
      Record { stake, unstake, unstakeHeight := height, slots := [], totalUnstaked := 0 }
        (.array [.ofNat 0, stakeField, unstakeField, .ofNat height])
  | slots {stake : Int} {slots : List Slot} {stakeField : Value} {entries : List Value}
      (stake_form : Field.AmountForm stake stakeField)
      (entries_form : List.Forall₂ SlotEntry slots entries) (stake_nonneg : 0 ≤ stake)
      (slots_valid : Slot.Valid slots) (in_range : stake + Slot.total slots ≤ Amount.greatest) :
      Record { stake, unstake := 0, unstakeHeight := 0, slots, totalUnstaked := 0 }
        (.array [.ofNat 1, stakeField, .array entries])

variable {part : StakePart} {value stakeField unstakeField heightField entriesField : Value}

theorem readSlot_eq_ok_iff {entry : Value} {slot : Slot} :
    readSlot entry = .ok slot ↔ SlotEntry slot entry := by
  constructor
  · intro h
    obtain ⟨items, hitems, hrest⟩ := bind_eq_ok.1 h
    rw [Field.readArray_eq_ok_iff.1 hitems]
    split at hrest
    · obtain ⟨amount, hamount, hrest⟩ := bind_eq_ok.1 hrest
      obtain ⟨height, hheight, hslot⟩ := bind_eq_ok.1 hrest
      cases hslot
      rw [Field.readNat_eq_ok_iff.1 hheight]
      exact .mk (Field.readAmount_eq_ok_iff.1 hamount)
    · exact absurd hrest (throw_ne_ok _ _)
  · rintro ⟨hamount⟩
    simp only [readSlot, Field.readArray, ok_bind, Field.readAmount_eq_ok_iff.2 hamount,
      Field.readNat_ofNat, pure_eq_ok]

theorem readSlots_eq_ok_iff {entries : List Value} {slots : List Slot} :
    entries.mapM readSlot = .ok slots ↔ List.Forall₂ SlotEntry slots entries := by
  simp only [mapM_eq_ok_iff, readSlot_eq_ok_iff]

/-- Amounts that are not negative fit if their sum is in the range. -/
theorem amountsFit_iff {stake unstake : Int} {slots : List Slot} (hstake : 0 ≤ stake)
    (hunstake : 0 ≤ unstake) (hslots : Slot.Valid slots) :
    amountsFit stake unstake slots = true ↔
      stake + unstake + Slot.total slots ≤ Amount.greatest :=
  ⟨sum_le_of_amountsFit, amountsFit_of_le hstake hunstake hslots⟩

theorem record_of_ofSingleFields
    (h : ofSingleFields stakeField unstakeField heightField = .ok part) :
    part.Record (.array [.ofNat 0, stakeField, unstakeField, heightField]) := by
  unfold ofSingleFields at h
  simp only [bind_eq_ok, throw_bind, refused_or_eq_ok, not_or, Int.not_lt] at h
  obtain ⟨stake, hstake, unstake, hunstake, height, hheight, ⟨hstake_nonneg, hunstake_nonneg⟩,
    hfits, hpart⟩ := h
  cases hpart
  have hsum := (amountsFit_iff hstake_nonneg hunstake_nonneg Slot.Valid.nil).1
    (by simpa using hfits)
  rw [Slot.total_nil, Int.add_zero] at hsum
  rw [Field.readNat_eq_ok_iff.1 hheight]
  exact .single (Field.readAmount_eq_ok_iff.1 hstake) (Field.readAmount_eq_ok_iff.1 hunstake)
    hstake_nonneg hunstake_nonneg hsum

theorem record_of_ofSlotFields (h : ofSlotFields stakeField entriesField = .ok part) :
    part.Record (.array [.ofNat 1, stakeField, entriesField]) := by
  unfold ofSlotFields at h
  simp only [bind_eq_ok, throw_bind, refused_or_eq_ok, not_or, Int.not_lt, Decidable.not_not] at h
  obtain ⟨stake, hstake, entries, hentries, slots, hslots, hstake_nonneg, ⟨hvalid, hfits⟩, hpart⟩ :=
    h
  cases hpart
  have hsum := (amountsFit_iff hstake_nonneg (Int.le_refl 0) hvalid).1 (by simpa using hfits)
  rw [Int.add_zero] at hsum
  rw [Field.readArray_eq_ok_iff.1 hentries]
  exact .slots (Field.readAmount_eq_ok_iff.1 hstake) (readSlots_eq_ok_iff.1 hslots) hstake_nonneg
    hvalid hsum

/-- Every record is read. -/
theorem Record.ofValue_eq (h : part.Record value) : ofValue value = .ok part := by
  cases h with
  | @single stake unstake height _ _ stake_form unstake_form stake_nonneg unstake_nonneg in_range =>
      have hfits : amountsFit stake unstake [] = true := by
        refine (amountsFit_iff stake_nonneg unstake_nonneg Slot.Valid.nil).2 ?_
        rwa [Slot.total_nil, Int.add_zero]
      have hsigns : ¬ (stake < 0 ∨ unstake < 0) := by omega
      simp only [ofValue, ofSingleFields, Field.readArray, mapError_ok, ok_bind, readVersion_ofNat,
        singleVersion, if_true, Field.readAmount_eq_ok_iff.2 stake_form,
        Field.readAmount_eq_ok_iff.2 unstake_form, Field.readNat_ofNat, if_neg hsigns, hfits,
        Bool.not_true, Bool.false_eq_true, if_false, pure_eq_ok, empty]
  | @slots stake slots _ entries stake_form entries_form stake_nonneg slots_valid in_range =>
      have hfits : amountsFit stake 0 slots = true := by
        refine (amountsFit_iff stake_nonneg (Int.le_refl 0) slots_valid).2 ?_
        rwa [Int.add_zero]
      simp only [ofValue, ofSlotFields, Field.readArray, mapError_ok, ok_bind, readVersion_ofNat,
        singleVersion, slotVersion, Nat.one_ne_zero, if_false, if_true,
        Field.readAmount_eq_ok_iff.2 stake_form, readSlots_eq_ok_iff.2 entries_form,
        if_neg (Int.not_lt.2 stake_nonneg), slots_valid, hfits, not_true_eq_false, Bool.not_true,
        Bool.false_eq_true, or_self, pure_eq_ok, empty]

/-- **The values that are read as a stake part are its records.** -/
theorem ofValue_eq_ok_iff : ofValue value = .ok part ↔ part.Record value := by
  refine ⟨?_, Record.ofValue_eq⟩
  intro h
  obtain ⟨items, hitems, hrest⟩ := bind_eq_ok.1 h
  rw [Field.readArray_eq_ok_iff.1 (mapError_eq_ok.1 hitems)]
  split at hrest
  · exact absurd hrest (throw_ne_ok _ _)
  · obtain ⟨found, hfound, hrest⟩ := bind_eq_ok.1 hrest
    rw [readVersion_eq_ok_iff.1 hfound]
    -- the version says how many fields there are
    split at hrest
    · next hversion =>
        rw [hversion]
        split at hrest
        · exact record_of_ofSingleFields (mapError_eq_ok.1 hrest)
        · exact absurd hrest (throw_ne_ok _ _)
    split at hrest
    · next hversion =>
        rw [hversion]
        split at hrest
        · exact record_of_ofSlotFields (mapError_eq_ok.1 hrest)
        · exact absurd hrest (throw_ne_ok _ _)
    · exact absurd hrest (throw_ne_ok _ _)

theorem SlotEntry.within {slot : Slot} {entry : Value} {budget : Nat} (h : SlotEntry slot entry) :
    entry.Within (budget + 5) := by
  cases h with
  | mk amount_form =>
      refine .array ?_
      simp only [List.forall_mem_cons]
      exact ⟨amount_form.within, .int _, nofun⟩

theorem SlotEntry.height_le {slot : Slot} {entry : Value} (h : SlotEntry slot entry)
    (ranged : entry.Ranged) : slot.unlockHeight ≤ maxHeight := by
  cases h with
  | mk amount_form =>
      cases ranged with
      | array items_ranged =>
          simp only [List.forall_mem_cons] at items_ranged
          exact Field.le_maxHeight_of_ranged items_ranged.2.1

theorem Record.within (h : part.Record value) : value.Within depthBudget := by
  cases h with
  | single stake_form unstake_form =>
      refine .array ?_
      simp only [List.forall_mem_cons]
      exact ⟨.int _, stake_form.within, unstake_form.within, .int _, nofun⟩
  | slots stake_form entries_form =>
      refine .array ?_
      simp only [List.forall_mem_cons]
      refine ⟨.int _, stake_form.within, .array ?_, nofun⟩
      exact forall_items (@List.Forall₂.flip _ _ (flip SlotEntry) _ _ entries_form)
        (fun _ _ => trivial) fun _ _ hentry _ => SlotEntry.within hentry

/-- **The bytes that are read as a stake part are the forms of its records.** -/
theorem ofBytes_eq_ok_iff {bytes : Bytes} :
    ofBytes bytes = .ok part ↔ ∃ value, value.Form bytes ∧ part.Record value :=
  decoded_eq_ok_iff (fun _ _ => ofValue_eq_ok_iff) fun _ _ => Record.within

/-- What is read as a stake part can be recorded again. -/
theorem recordable_of_ofBytes {bytes : Bytes} (h : ofBytes bytes = .ok part) : part.Recordable := by
  obtain ⟨value, hform, hrecord⟩ := ofBytes_eq_ok_iff.1 h
  have hranged := hform.ranged
  cases hrecord with
  | @single stake unstake height _ _ stake_form unstake_form stake_nonneg unstake_nonneg in_range =>
      cases hranged with
      | array items_ranged =>
          simp only [List.forall_mem_cons] at items_ranged
          obtain ⟨-, -, -, hheight, -⟩ := items_ranged
          have hlength : (schedule ⟨stake, unstake, height, [], 0⟩).length ≤ 1 := by
            rw [schedule, adopt]
            split
            · exact Nat.zero_le 1
            · exact Nat.le_refl 1
          refine ⟨⟨stake_nonneg, unstake_nonneg, Slot.Valid.nil⟩,
            ⟨Field.le_maxHeight_of_ranged hheight, fun _ h => absurd h List.not_mem_nil⟩, ?_,
            by omega⟩
          rwa [pending, Slot.total_nil, Int.add_zero]
  | @slots stake slots _ entries stake_form entries_form stake_nonneg slots_valid in_range =>
      obtain ⟨front, hentries⟩ := hform.exists_item (.array entries) (by simp)
      cases hranged with
      | array items_ranged =>
          simp only [List.forall_mem_cons] at items_ranged
          obtain ⟨-, -, hentries_ranged, -⟩ := items_ranged
          refine ⟨⟨stake_nonneg, Int.le_refl 0, slots_valid⟩, ⟨Nat.zero_le _, ?_⟩, ?_, ?_⟩
          · cases hentries_ranged with
            | array entries_ranged =>
                exact forall_items entries_form entries_ranged fun _ _ => SlotEntry.height_le
          · rwa [pending, Int.zero_add]
          · rw [schedule, adopt, if_pos rfl, entries_form.length_eq]
            exact hentries.length_lt

end StakePart

/-! ### Delegation parts -/

namespace DelegationPart

/-- The entries `[target, amount]` of a delegation, whose amount is not negative. -/
inductive Entry (d : Delegation) : Value → Prop
  | mk {amount : Value} (amount_form : Field.AmountForm d.amount amount) (nonneg : 0 ≤ d.amount) :
      Entry d (.array [Field.address d.target, amount])

/-- The records `[0, delegated, entries]` of a delegation part; the delegated amount is not
negative. -/
inductive Record (part : DelegationPart) : Value → Prop
  | mk {delegated : Value} {entries : List Value}
      (delegated_form : Field.AmountForm part.delegated delegated) (nonneg : 0 ≤ part.delegated)
      (entries_form : List.Forall₂ Entry part.delegations entries) :
      Record part (.array [.ofNat 0, delegated, .array entries])

variable {part : DelegationPart} {d : Delegation} {value entry : Value}

theorem readEntry_eq_ok_iff : readEntry entry = .ok d ↔ Entry d entry := by
  constructor
  · intro h
    obtain ⟨items, hitems, hrest⟩ := bind_eq_ok.1 h
    rw [Field.readArray_eq_ok_iff.1 hitems]
    split at hrest
    · simp only [bind_eq_ok, throw_bind, refused_or_eq_ok, Int.not_lt] at hrest
      obtain ⟨target, htarget, amount, hamount, hsign, hd⟩ := hrest
      cases hd
      rw [Field.readAddress_eq_ok_iff.1 htarget]
      exact .mk (Field.readAmount_eq_ok_iff.1 hamount) hsign
    · exact absurd hrest (throw_ne_ok _ _)
  · rintro ⟨hamount, hsign⟩
    simp only [readEntry, Field.readArray, ok_bind, Field.readAddress_address,
      Field.readAmount_eq_ok_iff.2 hamount, if_neg (Int.not_lt.2 hsign), pure_eq_ok]

theorem readEntries_eq_ok_iff {entries : List Value} {delegations : List Delegation} :
    entries.mapM readEntry = .ok delegations ↔ List.Forall₂ Entry delegations entries := by
  simp only [mapM_eq_ok_iff, readEntry_eq_ok_iff]

theorem ofFields_eq_ok_iff {delegated entries : Value} :
    ofFields delegated entries = .ok part ↔
      Field.AmountForm part.delegated delegated ∧ 0 ≤ part.delegated ∧
        ∃ items, entries = .array items ∧ List.Forall₂ Entry part.delegations items := by
  constructor
  · intro h
    unfold ofFields at h
    simp only [bind_eq_ok, throw_bind, refused_or_eq_ok, Int.not_lt] at h
    obtain ⟨amount, hamount, hsign, items, hitems, delegations, hdelegations, hpart⟩ := h
    cases hpart
    exact ⟨Field.readAmount_eq_ok_iff.1 hamount, hsign, items, Field.readArray_eq_ok_iff.1 hitems,
      readEntries_eq_ok_iff.1 hdelegations⟩
  · rintro ⟨hamount, hsign, items, rfl, hitems⟩
    simp only [ofFields, Field.readAmount_eq_ok_iff.2 hamount, ok_bind, Field.readArray,
      if_neg (Int.not_lt.2 hsign), readEntries_eq_ok_iff.2 hitems, pure_eq_ok]

/-- **The values that are read as a delegation part are its records.** -/
theorem ofValue_eq_ok_iff : ofValue value = .ok part ↔ part.Record value := by
  constructor
  · intro h
    obtain ⟨items, hitems, hrest⟩ := bind_eq_ok.1 h
    rw [Field.readArray_eq_ok_iff.1 (mapError_eq_ok.1 hitems)]
    split at hrest
    · simp only [bind_eq_ok, throw_bind, refused_or_eq_ok, mapError_eq_ok] at hrest
      obtain ⟨found, hfound, hversion, hfields⟩ := hrest
      obtain ⟨hamount, hsign, entries, rfl, hentries⟩ := ofFields_eq_ok_iff.1 hfields
      rw [readVersion_eq_ok_iff.1 hfound, Decidable.not_not.1 hversion]
      exact .mk hamount hsign hentries
    · exact absurd hrest (throw_ne_ok _ _)
  · rintro ⟨hamount, hsign, hentries⟩
    have hfields := ofFields_eq_ok_iff.2 ⟨hamount, hsign, _, rfl, hentries⟩
    simp only [ofValue, Field.readArray, mapError_ok, ok_bind, readVersion_ofNat, version, ne_eq,
      not_true_eq_false, if_false, hfields]

theorem Entry.within {budget : Nat} (h : Entry d entry) : entry.Within (budget + 5) := by
  cases h with
  | mk amount_form =>
      refine .array ?_
      simp only [List.forall_mem_cons]
      exact ⟨.bin _, amount_form.within, nofun⟩

theorem Record.within (h : part.Record value) : value.Within depthBudget := by
  cases h with
  | mk delegated_form nonneg entries_form =>
      refine .array ?_
      simp only [List.forall_mem_cons]
      refine ⟨.int _, delegated_form.within, .array ?_, nofun⟩
      exact forall_items (@List.Forall₂.flip _ _ (flip Entry) _ _ entries_form)
        (fun _ _ => trivial) fun _ _ hentry _ => Entry.within hentry

/-- **The bytes that are read as a delegation part are the forms of its records.** -/
theorem ofBytes_eq_ok_iff {bytes : Bytes} :
    ofBytes bytes = .ok part ↔ ∃ value, value.Form bytes ∧ part.Record value :=
  decoded_eq_ok_iff (fun _ _ => ofValue_eq_ok_iff) fun _ _ => Record.within

/-- What is read as a delegation part can be recorded again. -/
theorem recordable_of_ofBytes {bytes : Bytes} (h : ofBytes bytes = .ok part) :
    part.Recordable := by
  obtain ⟨value, hform, hrecord⟩ := ofBytes_eq_ok_iff.1 h
  cases hrecord with
  | @mk _ entries delegated_form nonneg entries_form =>
      obtain ⟨front, hentries⟩ := hform.exists_item (.array entries) (by simp)
      refine ⟨inRange_of_ofBytes h, ?_⟩
      rw [entries_form.length_eq]
      exact hentries.length_lt

end DelegationPart

/-! ### All parts -/

/-- **A byte string is read as a part exactly if it is one value, with nothing after it, that is a
record of the part; and no part is read that could not be recorded again.**  Then no amount of it is
negative, its slots are in order and hold something each, and all of a stake part together is an
amount. -/
theorem ofBytes_eq_ok_iff_record (bytes : Bytes) :
    (∀ part, StakePart.ofBytes bytes = .ok part ↔ ∃ value, value.Form bytes ∧ part.Record value) ∧
      (∀ part, CoinPart.ofBytes bytes = .ok part ↔ ∃ value, value.Form bytes ∧ part.Record value) ∧
      (∀ part, DelegationPart.ofBytes bytes = .ok part ↔
        ∃ value, value.Form bytes ∧ part.Record value) ∧
      (∀ part, StakePart.ofBytes bytes = .ok part → part.Recordable) ∧
      (∀ part, CoinPart.ofBytes bytes = .ok part → part.Recordable) ∧
      ∀ part, DelegationPart.ofBytes bytes = .ok part → part.Recordable :=
  ⟨fun _ => StakePart.ofBytes_eq_ok_iff, fun _ => CoinPart.ofBytes_eq_ok_iff,
    fun _ => DelegationPart.ofBytes_eq_ok_iff, fun _ => StakePart.recordable_of_ofBytes,
    fun _ => CoinPart.recordable_of_ofBytes, fun _ => DelegationPart.recordable_of_ofBytes⟩

/-- A record of which no field is written in its shortest form. -/
def CoinPart.wideRecord : Bytes :=
  [0x94, 0xcc, 0x00, 0xd0, 0x01, 0xcd, 0x00, 0xff, 0xc7, 0x02, 0x01, 0x00, 0x64]

theorem ofBytes_eq_ok_iff_record_wide :
    CoinPart.ofBytes CoinPart.wideRecord = .ok ⟨.genesis, 0xff, 100⟩ ∧
      (∃ value, value.Form CoinPart.wideRecord ∧ CoinPart.Record ⟨.genesis, 0xff, 100⟩ value) ∧
      CoinPart.Recordable ⟨.genesis, 0xff, 100⟩ := by
  obtain ⟨-, hrecord, -, -, hrecordable, -⟩ := ofBytes_eq_ok_iff_record CoinPart.wideRecord
  have hread : CoinPart.ofBytes CoinPart.wideRecord = .ok ⟨.genesis, 0xff, 100⟩ := rfl
  exact ⟨hread, (hrecord _).1 hread, hrecordable _ hread⟩

end StakeLedger
