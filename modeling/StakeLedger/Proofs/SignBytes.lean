/-
**Sign bytes.**

An integer in two's complement may be written wider than it needs to be: any number of bytes that
repeat its sign may stand in front.  Two byte strings of one length that spell the same integer are
the same, and so two byte strings that spell the same integer differ in their sign bytes alone.

Main definitions:

* `StakeLedger.Bytes.signByte`, `StakeLedger.Bytes.widen` — the byte that repeats a sign, and a byte
  string with more of them in front.

Main results:

* `StakeLedger.Bytes.toInt_widen` — sign bytes change nothing;
* `StakeLedger.Bytes.eq_of_toInt_eq` — strings of one length and one value are equal;
* `StakeLedger.Bytes.widened_of_toInt_eq` — **strings of one value differ in sign bytes alone**.
-/
import StakeLedger.Bytes

set_option autoImplicit false

namespace StakeLedger.Bytes

/-- The byte that repeats the sign of an integer. -/
def signByte (n : Int) : UInt8 := if n < 0 then 0xff else 0

/-- The bytes with `count` sign bytes in front. -/
def widen (count : Nat) (bytes : Bytes) : Bytes :=
  List.replicate count (signByte bytes.toInt) ++ bytes

@[simp] theorem length_widen (count : Nat) (bytes : Bytes) :
    (widen count bytes).length = count + bytes.length := by
  rw [widen, List.length_append, List.length_replicate]

/-! ### The number that bytes continue -/

/-- The number that `bytes` make of a number that stands in front of them. -/
def extendInt (n : Int) (bytes : Bytes) : Int :=
  bytes.foldl (fun (n : Int) (b : UInt8) => n * 256 + (b.toNat : Int)) n

theorem toInt_cons (b : UInt8) (rest : Bytes) : toInt (b :: rest) = extendInt (signed b) rest := rfl

theorem extendInt_cons (n : Int) (b : UInt8) (rest : Bytes) :
    extendInt n (b :: rest) = extendInt (n * 256 + (b.toNat : Int)) rest := rfl

/-- Further bytes keep the sign. -/
theorem extendInt_neg_iff (n : Int) (bytes : Bytes) : extendInt n bytes < 0 ↔ n < 0 := by
  induction bytes generalizing n with
  | nil => rfl
  | cons b rest ih =>
      have hb := b.toNat_lt
      rw [extendInt_cons, ih]
      omega

/-- As many further bytes make different numbers different. -/
theorem extendInt_inj {a b : Bytes} {n m : Int} (length_eq : a.length = b.length)
    (h : extendInt n a = extendInt m b) : n = m ∧ a = b := by
  induction a generalizing b n m with
  | nil =>
      cases List.length_eq_zero_iff.1 length_eq.symm
      exact ⟨h, rfl⟩
  | cons x rest ih =>
      cases b with
      | nil => cases length_eq
      | cons y others =>
          have hx := x.toNat_lt
          have hy := y.toNat_lt
          rw [extendInt_cons, extendInt_cons] at h
          obtain ⟨hfront, rfl⟩ := ih (Nat.succ.inj length_eq) h
          have hbyte : x = y := UInt8.toNat_inj.1 (by omega)
          refine ⟨by omega, ?_⟩
          rw [hbyte]

theorem signed_inj {x y : UInt8} (h : signed x = signed y) : x = y := by
  have hx := x.toNat_lt
  have hy := y.toNat_lt
  unfold signed at h
  apply UInt8.toNat_inj.1
  split at h <;> split at h <;> omega

/-! ### Sign bytes in front -/

/-- One sign byte more changes nothing. -/
theorem toInt_signByte_cons (bytes : Bytes) :
    toInt (signByte bytes.toInt :: bytes) = bytes.toInt := by
  cases bytes with
  | nil => rfl
  | cons b rest =>
      have hb := b.toNat_lt
      have hsign : toInt (b :: rest) < 0 ↔ 128 ≤ b.toNat := by
        rw [toInt_cons, extendInt_neg_iff, signed]
        split <;> omega
      have hfront : signed (signByte (toInt (b :: rest))) * 256 + (b.toNat : Int) = signed b := by
        rw [signByte]
        split
        · next hneg =>
            have hhigh := hsign.1 hneg
            have hbyte : signed 0xff = -1 := by decide
            rw [hbyte, signed, if_neg (Nat.not_lt.2 hhigh)]
            omega
        · next hpos =>
            have hlow : b.toNat < 128 := Nat.not_le.1 fun hle => hpos (hsign.2 hle)
            have hbyte : signed 0 = 0 := by decide
            rw [hbyte, signed, if_pos hlow]
            omega
      rw [toInt_cons, extendInt_cons, hfront, ← toInt_cons]

/-- **Sign bytes change nothing.** -/
theorem toInt_widen (count : Nat) (bytes : Bytes) : toInt (widen count bytes) = toInt bytes := by
  induction count with
  | zero => rfl
  | succ count ih =>
      change toInt (signByte bytes.toInt :: widen count bytes) = toInt bytes
      rw [← ih, toInt_signByte_cons]

/-- **Byte strings of one length that spell the same integer are equal.** -/
theorem eq_of_toInt_eq {a b : Bytes} (length_eq : a.length = b.length)
    (h : a.toInt = b.toInt) : a = b := by
  cases a with
  | nil => exact (List.length_eq_zero_iff.1 length_eq.symm).symm
  | cons x rest =>
      cases b with
      | nil => cases length_eq
      | cons y others =>
          obtain ⟨hfront, rfl⟩ := extendInt_inj (Nat.succ.inj length_eq) h
          rw [signed_inj hfront]

/-- **Of two byte strings that spell the same integer the longer one is the other with sign bytes in
front.** -/
theorem widened_of_toInt_eq {a b : Bytes} (length_le : a.length ≤ b.length)
    (h : a.toInt = b.toInt) : ∃ count, b = a.widen count := by
  refine ⟨b.length - a.length, eq_of_toInt_eq ?_ ?_⟩
  · rw [length_widen]
    omega
  · rw [toInt_widen, h]

end StakeLedger.Bytes
