/-
**The shortest byte form of an integer.**

An integer takes as many bytes as its significant bits and a sign bit need, and the shortest form is
that many of the last bytes of a wider one.  Every other byte string of the same value, the empty
one apart, is the shortest form with sign bytes in front, so no other one is as short, and a byte
string is the form that its value is written in exactly if no shorter one has that value.

Main definitions:

* `StakeLedger.Bytes.topBit`, `StakeLedger.Bytes.twosComplement` — the sign of a byte string, and
  the value that it has in two's complement;
* `StakeLedger.Bytes.Shortest` — byte strings that no shorter one shares its value with;
* `StakeLedger.Amount.significantBits`, `StakeLedger.Amount.byteCount` — how many bits of an integer
  are significant, and how many bytes it takes.

Main results:

* `StakeLedger.Bytes.toInt_eq_twosComplement` — the value that is read is the one in two's
  complement;
* `StakeLedger.Amount.toBytes_eq_drop` — the shortest form as the last bytes of a wider one;
* `StakeLedger.Amount.toBytes_eq_iff_shortest` — **the shortest form is the shortest one**;
* `StakeLedger.Amount.shortest_codec` — **reading and writing amounts is exact**.
-/
import StakeLedger.Proofs.Fields
import StakeLedger.Proofs.Ranges
import StakeLedger.Proofs.SignBytes

set_option autoImplicit false

namespace StakeLedger

/-! ### Two's complement -/

namespace Bytes

/-- Whether the first bit is set. -/
def topBit (bytes : Bytes) : Bool := bytes.head?.any fun b => 128 ≤ b.toNat

/-- The value in two's complement: the natural number that the bytes spell, less the number of all
byte strings of the length if the first bit is set. -/
def twosComplement (bytes : Bytes) : Int :=
  if bytes.topBit then bytes.toNat - Nat.pow 256 bytes.length else bytes.toNat

/-- No shorter byte string but the empty one has the same value. -/
def Shortest (bytes : Bytes) : Prop :=
  bytes ≠ [] ∧ ∀ other : Bytes, other ≠ [] → other.twosComplement = bytes.twosComplement →
    bytes.length ≤ other.length

theorem natCast_pow_length_cons (b : UInt8) (rest : Bytes) :
    ((Nat.pow 256 (b :: rest).length : Nat) : Int) = 256 * (Nat.pow 256 rest.length : Nat) := by
  rw [List.length_cons, pow_256_succ]
  exact Int.natCast_mul 256 _

/-- Bytes behind a number weigh as much as they do alone. -/
theorem extendInt_eq (n : Int) (bytes : Bytes) :
    extendInt n bytes = n * (Nat.pow 256 bytes.length : Nat) + extendInt 0 bytes := by
  induction bytes generalizing n with
  | nil => simp [extendInt]
  | cons b rest ih =>
      rw [extendInt_cons, extendInt_cons, ih, ih (0 * 256 + _), natCast_pow_length_cons,
        Int.add_mul, Int.add_mul, Int.mul_assoc, Int.mul_assoc, Int.zero_mul, Int.zero_add,
        Int.add_assoc]

/-- Bytes without a sign. -/
theorem natCast_toNat (bytes : Bytes) : (bytes.toNat : Int) = extendInt 0 bytes := by
  suffices h : ∀ n : Nat,
      ((bytes.foldl (fun n b => n * 256 + b.toNat) n : Nat) : Int) = extendInt n bytes from h 0
  induction bytes with
  | nil => exact fun n => rfl
  | cons b rest ih => exact fun n => ih _

/-- **The value that is read is the one in two's complement.** -/
theorem toInt_eq_twosComplement (bytes : Bytes) : bytes.toInt = bytes.twosComplement := by
  cases bytes with
  | nil => rfl
  | cons b rest =>
      have htop : topBit (b :: rest) = decide (128 ≤ b.toNat) := rfl
      rw [toInt_cons, extendInt_eq, twosComplement, htop, natCast_toNat, natCast_pow_length_cons,
        extendInt_cons, extendInt_eq (0 * 256 + _), Int.zero_mul, Int.zero_add, signed]
      by_cases hsign : 128 ≤ b.toNat
      · rw [if_neg (Nat.not_lt.2 hsign), if_pos (decide_eq_true hsign), Int.sub_mul]
        omega
      · rw [if_pos (Nat.not_le.1 hsign), if_neg (by simpa using hsign)]

/-- The first bit is the sign. -/
theorem topBit_eq_true_iff (bytes : Bytes) : bytes.topBit = true ↔ bytes.toInt < 0 := by
  cases bytes with
  | nil => exact ⟨nofun, nofun⟩
  | cons b rest =>
      have htop : topBit (b :: rest) = decide (128 ≤ b.toNat) := rfl
      have hb := b.toNat_lt
      rw [htop, decide_eq_true_iff, toInt_cons, extendInt_neg_iff, signed]
      split <;> omega

/-- The last bytes of a form are the form with that many bytes. -/
theorem drop_ofInt (count width : Nat) (n : Int) :
    (ofInt (count + width) n).drop count = ofInt width n := by
  induction width generalizing n with
  | zero =>
      rw [Nat.add_zero, List.drop_eq_nil_of_le (Nat.le_of_eq (length_ofInt _ _)),
        List.length_eq_zero_iff.1 (length_ofInt 0 n)]
  | succ width ih =>
      have hlength : count ≤ (ofInt (count + width) (n / 256)).length := by
        rw [length_ofInt]
        exact Nat.le_add_right count width
      rw [← Nat.add_assoc, ofInt_succ, ofInt_succ, List.drop_append_of_le_length hlength, ih]

end Bytes

/-! ### How many bytes an integer takes -/

namespace Amount

/-- How many bits of an integer are significant: those behind the bits that repeat its sign. -/
def significantBits (n : Int) : Nat :=
  let magnitude := (if n < 0 then -n - 1 else n).toNat
  if magnitude = 0 then 0 else magnitude.log2 + 1

/-- How many bytes hold the significant bits of an integer and a sign bit. -/
def byteCount (n : Int) : Nat := (significantBits n + 8) / 8

/-- The significant bits of an integer fit where the integer itself does. -/
theorem significantBits_le_iff {n : Int} {count : Nat} :
    significantBits n ≤ count ↔ -(Nat.pow 2 count : Nat) ≤ n ∧ n < (Nat.pow 2 count : Nat) := by
  have hpos : 0 < Nat.pow 2 count := Nat.pow_pos (by decide)
  have hmagnitude : significantBits n ≤ count ↔
      (if n < 0 then -n - 1 else n).toNat < Nat.pow 2 count := by
    rw [significantBits]
    by_cases hzero : (if n < 0 then -n - 1 else n).toNat = 0
    · rw [if_pos hzero, hzero]
      exact ⟨fun _ => hpos, fun _ => Nat.zero_le count⟩
    · rw [if_neg hzero, Nat.add_one_le_iff]
      exact Nat.log2_lt hzero
  rw [hmagnitude]
  split <;> omega

/-- A byte less takes eight bits less. -/
theorem significantBits_ediv {n : Int} (wide : ¬ (-128 ≤ n ∧ n < 128)) :
    significantBits n = significantBits (n / 256) + 8 := by
  have hshift : ∀ count, Nat.pow 2 (count + 8) = Nat.pow 2 count * 256 := fun count =>
    Nat.pow_add 2 count 8
  have hleast : 8 ≤ significantBits n := by
    refine Nat.not_lt.1 fun hlt => wide ?_
    have hbounds := significantBits_le_iff.1 (Nat.le_of_lt_succ hlt)
    exact hbounds
  refine Nat.le_antisymm (significantBits_le_iff.2 ?_) ?_
  · have hquotient := significantBits_le_iff.1 (Nat.le_refl (significantBits (n / 256)))
    rw [hshift]
    omega
  · have hbounds := significantBits_le_iff.1 (Nat.le_refl (significantBits n))
    obtain ⟨count, hcount⟩ := Nat.exists_eq_add_of_le' hleast
    rw [hcount, hshift] at hbounds
    rw [hcount]
    exact Nat.add_le_add_right (significantBits_le_iff.2 (by omega)) 8

/-- **The shortest form has room for the significant bits and a sign bit.** -/
theorem toBytes_eq_ofInt (n : Int) : toBytes n = Bytes.ofInt (byteCount n) n := by
  fun_induction toBytes n with
  | case1 n narrow =>
      have hbits : significantBits n ≤ 7 := significantBits_le_iff.2 narrow
      have hone : byteCount n = 1 := by
        rw [byteCount]
        omega
      rw [hone]
      exact (Bytes.ofInt_succ 0 n).symm
  | case2 n wide ih =>
      have hcount : byteCount n = byteCount (n / 256) + 1 := by
        rw [byteCount, byteCount, significantBits_ediv wide]
        omega
      rw [ih, hcount, Bytes.ofInt_succ]
      rfl

theorem length_toBytes (n : Int) : (toBytes n).length = byteCount n := by
  rw [toBytes_eq_ofInt, Bytes.length_ofInt]

/-- The shortest form is made of the last bytes of a wider one. -/
theorem toBytes_eq_drop {n : Int} {width : Nat} (h : byteCount n ≤ width) :
    toBytes n = (Bytes.ofInt width n).drop (width - byteCount n) := by
  have hdrop := Bytes.drop_ofInt (width - byteCount n) (byteCount n) n
  rwa [Nat.sub_add_cancel h, ← toBytes_eq_ofInt, eq_comm] at hdrop

/-! ### All byte strings of one value -/

variable {n : Int} {bytes : Bytes}

/-- No byte string of the same value is shorter, unless it is empty. -/
theorem length_toBytes_le_of_toInt (nonempty : bytes ≠ []) (h : bytes.toInt = n) :
    (toBytes n).length ≤ bytes.length := by
  obtain ⟨width, hwidth⟩ := Nat.exists_eq_add_of_le' (List.length_pos_iff.2 nonempty)
  obtain ⟨hleast, hgreatest⟩ := Bytes.toInt_bounds (Nat.le_of_eq hwidth)
  rw [h] at hleast hgreatest
  rw [hwidth]
  exact length_toBytes_le width hleast hgreatest

/-- **The byte strings of one value, the empty one apart, are the shortest form with sign bytes in
front.** -/
theorem toInt_eq_iff_signed (nonempty : bytes ≠ []) :
    bytes.toInt = n ↔ ∃ count, bytes = List.replicate count (Bytes.signByte n) ++ toBytes n := by
  have hwiden : ∀ count, (toBytes n).widen count =
      List.replicate count (Bytes.signByte n) ++ toBytes n := fun count => by
    rw [Bytes.widen, toInt_toBytes]
  constructor
  · intro h
    obtain ⟨count, rfl⟩ := Bytes.widened_of_toInt_eq (length_toBytes_le_of_toInt nonempty h)
      ((toInt_toBytes n).trans h.symm)
    exact ⟨count, hwiden count⟩
  · rintro ⟨count, rfl⟩
    rw [← hwiden, Bytes.toInt_widen, toInt_toBytes]

/-- **The shortest form is the shortest byte string of its value, and the only one.** -/
theorem toBytes_eq_iff_shortest (h : bytes.toInt = n) : toBytes n = bytes ↔ bytes.Shortest := by
  constructor
  · rintro rfl
    refine ⟨toBytes_ne_nil n, fun other nonempty hvalue => ?_⟩
    rw [← Bytes.toInt_eq_twosComplement, ← Bytes.toInt_eq_twosComplement, h] at hvalue
    exact length_toBytes_le_of_toInt nonempty hvalue
  · rintro ⟨nonempty, hleast⟩
    have hvalue : (toBytes n).twosComplement = bytes.twosComplement := by
      rw [← Bytes.toInt_eq_twosComplement, ← Bytes.toInt_eq_twosComplement, toInt_toBytes, h]
    have hlength := hleast _ (toBytes_ne_nil n) hvalue
    exact Bytes.eq_of_toInt_eq
      (Nat.le_antisymm (length_toBytes_le_of_toInt nonempty h) hlength)
      ((toInt_toBytes n).trans h.symm)

/-- An amount takes no more than sixteen bytes. -/
theorem byteCount_le_of_inRange {n : Int} (h : InRange n) : byteCount n ≤ 16 := by
  rw [← length_toBytes]
  exact length_toBytes_of_inRange h

/-- **Reading and writing amounts is exact.**  Every amount takes from one to sixteen bytes, which
are the last ones of its form with sixteen; they read back, their first bit is the sign of the
amount, and every other byte string that reads as the amount is longer by sign bytes in front, the
empty one apart.  Every byte string with no more than sixteen bytes is read, as its value in two's
complement, and written again as it was if and only if it is the shortest of its value; longer ones
are not read. -/
theorem shortest_codec :
    (∀ n, InRange n →
      ofBytes (toBytes n) = .ok n ∧
      toBytes n = (Bytes.ofInt 16 n).drop (16 - byteCount n) ∧
      1 ≤ (toBytes n).length ∧ (toBytes n).length ≤ 16 ∧
      ((toBytes n).topBit = true ↔ n < 0) ∧
      (toBytes n).Shortest ∧
      ∀ bytes, bytes ≠ [] → (ofBytes bytes = .ok n ↔
        bytes.length ≤ 16 ∧
          ∃ count, bytes = List.replicate count (Bytes.signByte n) ++ toBytes n)) ∧
    (∀ bytes, bytes.length ≤ 16 → ofBytes bytes = .ok bytes.twosComplement ∧
      (toBytes bytes.twosComplement = bytes ↔ bytes.Shortest)) ∧
    (∀ bytes : Bytes, 16 < bytes.length →
      ofBytes bytes = .error (.integerTooLong bytes.length)) ∧
    ofBytes [] = .ok 0 := by
  refine ⟨?_, ?_, fun bytes long => if_pos long, rfl⟩
  · intro n inRange
    refine ⟨ofBytes_toBytes inRange, toBytes_eq_drop (byteCount_le_of_inRange inRange),
      List.length_pos_iff.2 (toBytes_ne_nil n), length_toBytes_of_inRange inRange, ?_,
      (toBytes_eq_iff_shortest (toInt_toBytes n)).1 rfl, ?_⟩
    · rw [Bytes.topBit_eq_true_iff, toInt_toBytes]
    · intro bytes nonempty
      rw [ofBytes_eq_ok_iff, toInt_eq_iff_signed nonempty]
  · intro bytes short
    have hvalue := bytes.toInt_eq_twosComplement
    exact ⟨ofBytes_eq_ok_iff.2 ⟨short, hvalue⟩, toBytes_eq_iff_shortest hvalue⟩

/-- 128 with one sign byte more than it needs, -129, which needs its sign byte, and zeros that are
too many. -/
theorem shortest_codec_signBytes :
    ofBytes [0, 0, 0x80] = .ok 128 ∧ toBytes 128 ≠ [0, 0, 0x80] ∧
      Bytes.Shortest [0xff, 0x7f] ∧
      ofBytes (List.replicate 17 0) = .error (.integerTooLong 17) := by
  obtain ⟨hwrite, hread, hlong, -⟩ := shortest_codec
  obtain ⟨-, hlast, -, -, -, -, hall⟩ := hwrite 128 (by decide)
  have htwo : toBytes 128 = [0, 0x80] := hlast
  refine ⟨(hall [0, 0, 0x80] (by decide)).2 ⟨by decide, 1, ?_⟩, ?_, ?_, hlong _ (by decide)⟩
  · rw [htwo]
    rfl
  · rw [htwo]
    decide
  · obtain ⟨-, hbytes, -⟩ := hwrite (-129) (by decide)
    have hvalue : Bytes.twosComplement [0xff, 0x7f] = -129 := by decide
    refine (hread [0xff, 0x7f] (by decide)).2.1 ?_
    rw [hvalue]
    exact hbytes

end Amount

end StakeLedger
