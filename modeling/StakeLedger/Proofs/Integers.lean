/-
**Integers in a fixed width and in the shortest one.**

The bytes of an integer in two's complement are the bytes of its quotient by 256 and then its
remainder, whatever the width is.  Both the fixed-width form and the shortest form are built that
way, and so both are understood by induction from the last byte to the first.

Main results:

* `StakeLedger.Bytes.toInt_ofInt` — an integer that fits a width reads back from it;
* `StakeLedger.Amount.length_toBytes_le` — how many bytes the shortest form takes;
* `StakeLedger.Amount.ofBytes_toBytes` — the shortest form of an amount is read.
-/
import StakeLedger.Codec.Field

set_option autoImplicit false

namespace StakeLedger

/-! ### A fixed width -/

namespace Bytes

/-- The remainder by a multiple of 256 shows its last byte apart. -/
theorem emod_mul_256 (n : Int) {p : Int} (pos : 0 < p) :
    n % (p * 256) = n / 256 % p * 256 + n % 256 := by
  have hlow := Int.emod_nonneg n (show (256 : Int) ≠ 0 by decide)
  have hbyte := Int.emod_lt_of_pos n (show (0 : Int) < 256 by decide)
  have hhigh := Int.emod_nonneg (n / 256) (Int.ne_of_gt pos)
  have htop := Int.emod_lt_of_pos (n / 256) pos
  have hsplit := Int.mul_ediv_add_emod n 256
  have hquotient := Int.mul_ediv_add_emod (n / 256) p
  -- `n` is a multiple of `p * 256` and a remainder that is smaller
  have hn : n = n / 256 % p * 256 + n % 256 + p * 256 * (n / 256 / p) := by
    have hmul : p * 256 * (n / 256 / p) = p * (n / 256 / p) * 256 := by
      rw [Int.mul_assoc, Int.mul_comm 256, ← Int.mul_assoc]
    rw [hmul]
    omega
  conv => lhs; rw [hn]
  rw [Int.add_mul_emod_self_left]
  exact Int.emod_eq_of_lt (by omega) (by omega)

/-- The last byte of a wider form is the remainder, and the bytes before it are the quotient's. -/
theorem ofInt_succ (width : Nat) (n : Int) :
    ofInt (width + 1) n = ofInt width (n / 256) ++ [UInt8.ofNat (n % 256).toNat] := by
  have hpos : (0 : Int) < (Nat.pow 256 width : Nat) :=
    Int.natCast_pos.2 (Nat.pow_pos (by decide))
  have hpow : ((Nat.pow 256 (width + 1) : Nat) : Int) = (Nat.pow 256 width : Nat) * 256 :=
    Int.natCast_mul _ _
  have hsplit := emod_mul_256 n hpos
  have hhigh := Int.emod_nonneg (n / 256) (Int.ne_of_gt hpos)
  have hlow := Int.emod_nonneg n (show (256 : Int) ≠ 0 by decide)
  have hbyte := Int.emod_lt_of_pos n (show (0 : Int) < 256 by decide)
  have hquotient : (n % ((Nat.pow 256 width : Nat) * 256)).toNat / 256 =
      (n / 256 % (Nat.pow 256 width : Nat)).toNat := by omega
  have hlast : UInt8.ofNat (n % ((Nat.pow 256 width : Nat) * 256)).toNat =
      UInt8.ofNat (n % 256).toNat := by
    apply UInt8.toNat_inj.1
    rw [UInt8.toNat_ofNat', UInt8.toNat_ofNat']
    omega
  rw [ofInt, hpow, ofNat, hquotient, hlast, ofInt]

/-- An integer that is not negative has the bytes of a natural number. -/
theorem ofInt_of_nonneg {width : Nat} {n : Int} (nonneg : 0 ≤ n)
    (fits : n < (Nat.pow 256 width : Nat)) : ofInt width n = ofNat width n.toNat := by
  rw [ofInt, Int.emod_eq_of_lt nonneg fits]

/-- An integer that fits a width reads back from it. -/
theorem toInt_ofInt (width : Nat) {n : Int} (least : -(128 * Nat.pow 256 width : Nat) ≤ n)
    (greatest : n < (128 * Nat.pow 256 width : Nat)) : toInt (ofInt (width + 1) n) = n := by
  have hlow := Int.emod_nonneg n (show (256 : Int) ≠ 0 by decide)
  have hbyte := Int.emod_lt_of_pos n (show (0 : Int) < 256 by decide)
  have hsplit := Int.mul_ediv_add_emod n 256
  induction width generalizing n with
  | zero =>
      change -128 ≤ n at least
      change n < 128 at greatest
      have hone : ofInt 1 n = [UInt8.ofNat (n % 256).toNat] := ofInt_succ 0 n
      rw [hone, toInt_singleton, signed, UInt8.toNat_ofNat']
      split <;> omega
  | succ width ih =>
      have hpow : Nat.pow 256 (width + 1) = Nat.pow 256 width * 256 := rfl
      have hne : ofInt (width + 1) (n / 256) ≠ [] := by
        rw [ofInt_succ]
        exact List.append_ne_nil_of_right_ne_nil _ (List.cons_ne_nil _ _)
      rw [hpow] at least greatest
      rw [ofInt_succ, toInt_append_singleton hne,
        ih (by omega) (by omega) (Int.emod_nonneg _ (by decide))
          (Int.emod_lt_of_pos _ (by decide)) (Int.mul_ediv_add_emod _ _),
        UInt8.toNat_ofNat']
      omega

end Bytes

/-! ### The shortest width -/

namespace Amount

/-- An integer that fits a width takes no more bytes in its shortest form. -/
theorem length_toBytes_le (width : Nat) {n : Int} (least : -(128 * Nat.pow 256 width : Nat) ≤ n)
    (greatest : n < (128 * Nat.pow 256 width : Nat)) : (toBytes n).length ≤ width + 1 := by
  induction width generalizing n with
  | zero =>
      change -128 ≤ n at least
      change n < 128 at greatest
      rw [toBytes, if_pos ⟨least, greatest⟩]
      exact Nat.le_refl 1
  | succ width ih =>
      have hpow : Nat.pow 256 (width + 1) = Nat.pow 256 width * 256 := rfl
      rw [hpow] at least greatest
      rw [toBytes]
      split
      · exact Nat.succ_le_succ (Nat.zero_le _)
      · have hquotient : (toBytes (n / 256)).length ≤ width + 1 := ih (by omega) (by omega)
        rw [List.length_append, List.length_singleton]
        omega

/-- An amount takes at most sixteen bytes. -/
theorem length_toBytes_of_inRange {n : Int} (h : InRange n) : (toBytes n).length ≤ 16 := by
  obtain ⟨hleast, hgreatest⟩ := h
  refine length_toBytes_le 15 hleast ?_
  have hlimit : ((128 * Nat.pow 256 15 : Nat) : Int) = greatest + 1 := rfl
  omega

/-- The shortest form of an amount is read. -/
theorem ofBytes_toBytes {n : Int} (h : InRange n) : ofBytes (toBytes n) = .ok n := by
  rw [ofBytes, if_neg (Nat.not_lt.2 (length_toBytes_of_inRange h)), toInt_toBytes]

end Amount

end StakeLedger
