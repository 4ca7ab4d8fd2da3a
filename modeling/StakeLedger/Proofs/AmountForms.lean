/-
**Amounts as values.**

An amount is written as an integer where the format has that integer, and otherwise as data of a
type of its own that holds the shortest byte form.  On the way back the first byte tells the two
apart, and neither is taken for the other.  More values are read as an amount than are ever written:
data may hold integers that the format has, and sign bytes that are not needed.  Whichever it was,
writing the amount again gives the one value that it is written as.

Main definitions:

* `StakeLedger.Field.Native` — the integers that the format has;
* `StakeLedger.Field.CanonicalAmount` — **the value that an amount is written as**, said without the
  writer;
* `StakeLedger.MsgPack.Lead.Integral` — first bytes that announce an integer.

Main results:

* `StakeLedger.MsgPack.Value.Form.exists_integral`, `StakeLedger.MsgPack.Value.Form.exists_ext` —
  how the forms of integers and of data start;
* `StakeLedger.Field.canonicalAmount_iff` — no amount has a second canonical value;
* `StakeLedger.Field.amount_survives` — **amounts survive being written and read**.
-/
import StakeLedger.Proofs.Forms
import StakeLedger.Proofs.Records
import StakeLedger.Proofs.Shortest

set_option autoImplicit false

namespace StakeLedger

open MsgPack (Value Lead Size decodeValue_encode)

/-! ### How forms start -/

namespace MsgPack

/-- A first byte that announces an integer, in the byte itself or behind it. -/
def Lead.Integral : Lead → Prop
  | .small _ | .unsigned _ | .signed _ => True
  | _ => False

variable {n : Int} {bytes data : Bytes}

/-- A form of an integer starts by announcing one. -/
theorem Value.Form.exists_integral (h : (Value.int n).Form bytes) :
    ∃ b field, bytes = b :: field ∧ (Lead.ofByte b).Integral := by
  cases h with
  | @small b _ lead => exact ⟨b, [], rfl, by rw [lead]; trivial⟩
  | @unsigned b field lead => exact ⟨b, field, rfl, by rw [lead]; trivial⟩
  | @signed b field lead => exact ⟨b, field, rfl, by rw [lead]; trivial⟩

/-- A form of data starts by announcing data, and holds the type behind the size. -/
theorem Value.Form.exists_ext (h : (Value.ext n data).Form bytes) :
    ∃ b size field type, bytes = b :: (field ++ type :: data) ∧ Lead.ofByte b = .ext size ∧
      size.Takes field data.length ∧ Bytes.toInt [type] = n := by
  cases h with
  | @ext b type size field _ lead takes => exact ⟨b, size, field, type, rfl, lead, takes, rfl⟩

end MsgPack

/-! ### The value of an amount -/

namespace Field

/-- The integers that the format has. -/
def Native (n : Int) : Prop := -0x8000000000000000 ≤ n ∧ n < 0x10000000000000000

instance (n : Int) : Decidable (Native n) := inferInstanceAs (Decidable (_ ∧ _))

/-- **The value that an amount is written as**: an integer if the format has it, and otherwise data
of a type of its own that no shorter data of the same value can stand for. -/
inductive CanonicalAmount (n : Int) : Value → Prop
  | int (native : Native n) : CanonicalAmount n (.int n)
  | ext {data : Bytes} (wide : ¬ Native n) (spells : data.twosComplement = n)
      (shortest : data.Shortest) : CanonicalAmount n (.ext amountType data)

variable {n : Int} {value : Value} {name : String}

theorem amount_of_native (h : Native n) : amount n = .int n := if_pos h

theorem amount_of_wide (h : ¬ Native n) : amount n = .ext amountType (Amount.toBytes n) := if_neg h

/-- **Every amount has one canonical value, the one it is written as.** -/
theorem canonicalAmount_iff : CanonicalAmount n value ↔ value = amount n := by
  constructor
  · intro h
    cases h with
    | int native => rw [amount_of_native native]
    | ext wide spells shortest =>
        rw [amount_of_wide wide, (Amount.toBytes_eq_iff_shortest
          ((Bytes.toInt_eq_twosComplement _).trans spells)).2 shortest]
  · rintro rfl
    have hvalue := Amount.toInt_toBytes n
    by_cases h : Native n
    · rw [amount_of_native h]
      exact .int h
    · rw [amount_of_wide h]
      refine .ext h ?_ ((Amount.toBytes_eq_iff_shortest hvalue).1 rfl)
      rw [← Bytes.toInt_eq_twosComplement, hvalue]

/-- An amount is read back from the bytes that it is written as. -/
theorem decodeValue_amount (h : Amount.InRange n) :
    decodeValue (amount n).encode = .ok (amount n) := decodeValue_encode (fits_amount h)

/-- What an amount is written as is a form of its value. -/
theorem form_amount (h : Amount.InRange n) : (amount n).Form (amount n).encode :=
  (@fits_amount 0 n h).form

/-- A wide amount is written as data of type 1 with the shortest bytes. -/
theorem exists_ext_of_wide (h : Amount.InRange n) (wide : ¬ Native n) :
    ∃ b size field, ∃ data : Bytes, (amount n).encode = b :: (field ++ 1 :: data) ∧
      Lead.ofByte b = .ext size ∧ size.Takes field data.length ∧
        data.twosComplement = n ∧ data.Shortest := by
  have hform := form_amount h
  have hcanonical := canonicalAmount_iff.2 (Eq.refl (amount n))
  generalize amount n = written at hform hcanonical
  cases hcanonical with
  | int native => exact absurd native wide
  | @ext data _ spells shortest =>
      obtain ⟨b, size, field, type, hbytes, hlead, htakes, htype⟩ := hform.exists_ext
      have hone : type = 1 := Bytes.signed_inj htype
      rw [hone] at hbytes
      exact ⟨b, size, field, data, hbytes, hlead, htakes, spells, shortest⟩

/-- An amount is written as an integer exactly if the format has it. -/
theorem integral_iff_native (h : Amount.InRange n) :
    (∃ b field, (amount n).encode = b :: field ∧ (Lead.ofByte b).Integral) ↔ Native n := by
  constructor
  · rintro ⟨b, field, hbytes, hintegral⟩
    refine Decidable.byContradiction fun wide => ?_
    obtain ⟨found, size, _, _, hwide, hlead, -⟩ := exists_ext_of_wide h wide
    cases (List.cons.inj (hbytes.symm.trans hwide)).1
    rw [hlead] at hintegral
    exact hintegral
  · intro native
    have hform := form_amount h
    rw [amount_of_native native] at hform ⊢
    exact hform.exists_integral

/-- An amount is read from the integer of the format and from data of its type that is not too
long. -/
theorem readAmount_eq_ok_iff_native (ranged : value.Ranged) :
    readAmount name value = .ok n ↔ (Native n ∧ value = .int n) ∨
      ∃ data : Bytes, value = .ext amountType data ∧ data.length ≤ 16 ∧
        data.twosComplement = n := by
  rw [readAmount_eq_ok_iff]
  constructor
  · intro h
    cases h with
    | int =>
        cases ranged with
        | int least greatest => exact Or.inl ⟨⟨least, greatest⟩, rfl⟩
    | ext hlength spells =>
        exact Or.inr ⟨_, rfl, hlength, (Bytes.toInt_eq_twosComplement _).symm.trans spells⟩
  · rintro (⟨-, rfl⟩ | ⟨data, rfl, hlength, spells⟩)
    · exact .int
    · exact .ext hlength ((Bytes.toInt_eq_twosComplement _).trans spells)

/-- **Amounts survive being written and read.**  The bytes of every amount are one value, which the
reader of fields reads as the amount; they announce an integer exactly if the format has it, and
otherwise data of type 1 with the shortest bytes.  Of all values of the format, an amount is read
from the integer that it is and from data of type 1 with no more than sixteen bytes that spell it in
two's complement.  Whichever of them an amount was read from, it is written as its canonical value,
the only one that it has. -/
theorem amount_survives (name : String) :
    (∀ n, Amount.InRange n →
      (∃ value, decodeValue (amount n).encode = .ok value ∧ ∀ total rest,
        FieldReader.read (readAmount name) ⟨total, value :: rest⟩ = (.ok n, ⟨total, rest⟩)) ∧
      ((∃ b field, (amount n).encode = b :: field ∧ (Lead.ofByte b).Integral) ↔ Native n) ∧
      (¬ Native n → ∃ b size field, ∃ data : Bytes,
        (amount n).encode = b :: (field ++ 1 :: data) ∧ Lead.ofByte b = .ext size ∧
          size.Takes field data.length ∧ data.twosComplement = n ∧ data.Shortest)) ∧
    (∀ value : Value, value.Ranged → ∀ n, readAmount name value = .ok n ↔
      (Native n ∧ value = .int n) ∨ ∃ data : Bytes, value = .ext amountType data ∧
        data.length ≤ 16 ∧ data.twosComplement = n) ∧
    ∀ n value, CanonicalAmount n value ↔ value = amount n := by
  refine ⟨fun n inRange => ⟨?_, integral_iff_native inRange, exists_ext_of_wide inRange⟩,
    fun value ranged n => readAmount_eq_ok_iff_native ranged, fun n value => canonicalAmount_iff⟩
  refine ⟨amount n, decodeValue_amount inRange, fun total rest => ?_⟩
  have hread : FieldReader.read (readAmount name) ⟨total, amount n :: rest⟩ =
      (readAmount name (amount n), ⟨total, rest⟩) := rfl
  rw [hread, readAmount_amount inRange]

/-- The least amount that is too wide for an integer of the format, and the same amount with a sign
byte that is not needed. -/
theorem amount_survives_wide :
    (∃ value, decodeValue (amount 0x10000000000000000).encode = .ok value ∧
      FieldReader.read (readAmount "balance") ⟨1, [value]⟩ = (.ok 0x10000000000000000, ⟨1, []⟩)) ∧
      (∃ b size field, ∃ data : Bytes,
        (amount 0x10000000000000000).encode = b :: (field ++ 1 :: data) ∧
          Lead.ofByte b = .ext size ∧ size.Takes field data.length ∧
            data.twosComplement = 0x10000000000000000 ∧ data.Shortest) ∧
      readAmount "balance" (.ext 1 [0, 1, 0, 0, 0, 0, 0, 0, 0, 0]) = .ok 0x10000000000000000 ∧
      amount 0x10000000000000000 ≠ .ext 1 [0, 1, 0, 0, 0, 0, 0, 0, 0, 0] := by
  obtain ⟨hwrite, hread, hcanonical⟩ := amount_survives "balance"
  have wide : ¬ Native 0x10000000000000000 := by decide
  obtain ⟨⟨value, hdecode, hvalue⟩, -, hbytes⟩ := hwrite 0x10000000000000000 (by decide)
  refine ⟨⟨value, hdecode, hvalue 1 []⟩, hbytes wide, ?_, fun heq => ?_⟩
  · exact (hread _ (.ext _ (by decide) (by decide)) _).2 (Or.inr ⟨_, rfl, by decide, by decide⟩)
  · -- data of ten bytes is not canonical, since nine spell the same
    have hpadded := (hcanonical 0x10000000000000000 _).2 heq.symm
    cases hpadded with
    | ext _ _ shortest =>
        exact absurd (shortest.2 [1, 0, 0, 0, 0, 0, 0, 0, 0] (by decide) (by decide)) (by decide)

end Field

end StakeLedger
