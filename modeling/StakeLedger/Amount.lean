/-
**Amounts.**

An amount is a signed integer of 128 bits.  Amounts are kept as unbounded integers, so that sums
can be stated before it is known whether they fit; the places where a sum has to fit use
`Amount.add?`, which is addition with the range check.

On the wire an amount is written as the shortest two's complement byte string that still shows its
sign: zero is one zero byte, 128 takes two bytes and -128 one.

Main definitions:

* `StakeLedger.Amount.InRange`, `StakeLedger.Amount.add?`, `StakeLedger.Amount.sum?` — the range
  and the arithmetic that stays in it;
* `StakeLedger.Amount.toBytes` — the shortest two's complement form.

Main results:

* `StakeLedger.Amount.toInt_toBytes` — the shortest form reads back, for every integer.
-/
import StakeLedger.Bytes

set_option autoImplicit false

namespace StakeLedger.Amount

/-! ### The range -/

/-- The least amount. -/
def least : Int := -0x80000000000000000000000000000000

/-- The greatest amount. -/
def greatest : Int := 0x7fffffffffffffffffffffffffffffff

/-- An integer that is an amount. -/
def InRange (n : Int) : Prop := least ≤ n ∧ n ≤ greatest

instance (n : Int) : Decidable (InRange n) := inferInstanceAs (Decidable (_ ∧ _))

/-- An integer that is no greater than the greatest amount on either side of zero. -/
theorem inRange_of_le {n : Int} (lower : -greatest ≤ n) (upper : n ≤ greatest) : InRange n :=
  ⟨Int.le_trans (by decide) lower, upper⟩

/-- The sum of two amounts, if it is one. -/
def add? (a b : Int) : Option Int :=
  if InRange (a + b) then some (a + b) else none

/-- The sum of a list of amounts on top of `start`, if every partial sum is an amount. -/
def sum? (start : Int) (amounts : List Int) : Option Int :=
  amounts.foldlM add? start

theorem add?_eq_some_iff {a b c : Int} : add? a b = some c ↔ c = a + b ∧ InRange (a + b) := by
  unfold add?
  split <;> simp_all [eq_comm]

theorem add?_eq_none_iff {a b : Int} : add? a b = none ↔ ¬ InRange (a + b) := by
  unfold add?
  split <;> simp_all

/-! ### The shortest byte form -/

/-- The lowest byte of the two's complement form. -/
def lowByte (n : Int) : UInt8 := UInt8.ofNat (n % 256).toNat

/-- The shortest byte string that spells `n` in two's complement. -/
def toBytes (n : Int) : Bytes :=
  if -128 ≤ n ∧ n < 128 then [lowByte n] else toBytes (n / 256) ++ [lowByte n]
termination_by n.natAbs
decreasing_by omega

theorem toNat_lowByte (n : Int) : ((lowByte n).toNat : Int) = n % 256 := by
  have := Int.emod_nonneg n (b := 256) (by decide)
  have := Int.emod_lt_of_pos n (b := 256) (by decide)
  simp only [lowByte, UInt8.toNat_ofNat']
  omega

theorem toBytes_ne_nil (n : Int) : toBytes n ≠ [] := by
  rw [toBytes]
  split <;> simp

/-- The shortest form reads back. -/
theorem toInt_toBytes (n : Int) : Bytes.toInt (toBytes n) = n := by
  fun_induction toBytes n with
  | case1 n h =>
      have := toNat_lowByte n
      simp only [Bytes.toInt_singleton, Bytes.signed]
      split <;> omega
  | case2 n h ih =>
      rw [Bytes.toInt_append_singleton (toBytes_ne_nil _), ih, toNat_lowByte]
      omega

end StakeLedger.Amount
