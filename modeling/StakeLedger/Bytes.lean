/-
**Byte strings and the numbers they carry.**

A byte string is read most significant byte first, either as a natural number or, when its top bit
is a sign, as a two's complement integer of any width.  Fixed-width writing drops what lies above
the width; reading never fails, so the callers decide which widths they accept.

Main definitions:

* `StakeLedger.Bytes` — byte strings;
* `StakeLedger.Bytes.toNat`, `StakeLedger.Bytes.ofNat` — unsigned numbers;
* `StakeLedger.Bytes.toInt`, `StakeLedger.Bytes.ofInt` — two's complement numbers;
* `StakeLedger.Bytes.split?`, `StakeLedger.Bytes.chunks` — cutting off a piece of a given length,
  and cutting all into such pieces;
* `StakeLedger.Bytes.text?` — the text that a byte string spells.

Main results:

* `StakeLedger.Bytes.toNat_ofNat` — a number written in `width` bytes reads back modulo
  `256 ^ width`;
* `StakeLedger.Bytes.split?_eq_some_iff`, `StakeLedger.Bytes.flatten_chunks` — cuts lose nothing;
* `StakeLedger.Bytes.text?_ofText`, `StakeLedger.Bytes.text?_eq_some_iff` — every text reads back
  from its own bytes, and from no others.
-/

set_option autoImplicit false

namespace StakeLedger

/-- A byte string. -/
abbrev Bytes := List UInt8

namespace Bytes

/-! ### Unsigned numbers -/

/-- The natural number that the bytes spell, most significant byte first. -/
def toNat (bytes : Bytes) : Nat :=
  bytes.foldl (fun n b => n * 256 + b.toNat) 0

/-- The `width` low bytes of `n`, most significant first. -/
def ofNat : (width n : Nat) → Bytes
  | 0, _ => []
  | width + 1, n => ofNat width (n / 256) ++ [UInt8.ofNat n]

@[simp] theorem toNat_nil : toNat [] = 0 := rfl

@[simp] theorem toNat_append_singleton (bytes : Bytes) (b : UInt8) :
    toNat (bytes ++ [b]) = toNat bytes * 256 + b.toNat := by
  simp [toNat]

@[simp] theorem length_ofNat (width n : Nat) : (ofNat width n).length = width := by
  induction width generalizing n with
  | zero => rfl
  | succ width ih => simp [ofNat, ih]

/-- A number written in `width` bytes reads back modulo `256 ^ width`. -/
theorem toNat_ofNat (width n : Nat) : toNat (ofNat width n) = n % Nat.pow 256 width := by
  induction width generalizing n with
  | zero => simp [ofNat, Nat.mod_one]
  | succ width ih =>
      have h : n % Nat.pow 256 (width + 1) =
          n % 256 + 256 * (n / 256 % Nat.pow 256 width) := by
        show n % (Nat.pow 256 width * 256) = _
        rw [Nat.mul_comm, Nat.mod_mul]
      rw [ofNat, toNat_append_singleton, ih, h, UInt8.toNat_ofNat']
      omega

theorem toNat_ofNat_of_lt {width n : Nat} (h : n < Nat.pow 256 width) :
    toNat (ofNat width n) = n := by
  rw [toNat_ofNat, Nat.mod_eq_of_lt h]

/-! ### Two's complement numbers -/

/-- The value of a byte whose top bit is a sign. -/
def signed (b : UInt8) : Int :=
  if b.toNat < 128 then b.toNat else b.toNat - 256

/-- The two's complement integer that the bytes spell; the empty string spells zero. -/
def toInt : Bytes → Int
  | [] => 0
  | b :: rest => rest.foldl (fun n b => n * 256 + b.toNat) (signed b)

/-- The `width` low bytes of the two's complement form of `n`, most significant first. -/
def ofInt (width : Nat) (n : Int) : Bytes :=
  ofNat width (n % Nat.pow 256 width).toNat

@[simp] theorem toInt_nil : toInt [] = 0 := rfl

@[simp] theorem toInt_singleton (b : UInt8) : toInt [b] = signed b := rfl

theorem toInt_append_singleton {bytes : Bytes} (h : bytes ≠ []) (b : UInt8) :
    toInt (bytes ++ [b]) = toInt bytes * 256 + b.toNat := by
  cases bytes with
  | nil => exact absurd rfl h
  | cons c rest => simp [toInt]

@[simp] theorem length_ofInt (width : Nat) (n : Int) : (ofInt width n).length = width :=
  length_ofNat _ _

/-! ### Cutting -/

/-- The first `n` bytes and the rest, if there are that many. -/
def split? (n : Nat) (bytes : Bytes) : Option (Bytes × Bytes) :=
  if (bytes.take n).length < n then none else some (bytes.take n, bytes.drop n)

/-- A cut loses nothing and has the length asked for. -/
theorem split?_eq_some_iff {n : Nat} {bytes front rest : Bytes} :
    split? n bytes = some (front, rest) ↔ bytes = front ++ rest ∧ front.length = n := by
  unfold split?
  constructor
  · intro h
    split at h
    · exact absurd h (by simp)
    · next hlen =>
        simp only [Option.some.injEq, Prod.mk.injEq] at h
        obtain ⟨rfl, rfl⟩ := h
        refine ⟨(List.take_append_drop n bytes).symm, ?_⟩
        have := List.length_take_le n bytes
        omega
  · rintro ⟨rfl, rfl⟩
    simp

theorem split?_eq_none_iff {n : Nat} {bytes : Bytes} :
    split? n bytes = none ↔ bytes.length < n := by
  unfold split?
  simp only [List.length_take]
  split <;> simp <;> omega

/-- The bytes in pieces of `size`, of which the last may be shorter; a size of zero counts as
one. -/
def chunks (size : Nat) (bytes : Bytes) : List Bytes :=
  if bytes = [] then [] else bytes.take (max size 1) :: chunks size (bytes.drop (max size 1))
termination_by bytes.length
decreasing_by
  next h =>
    have := List.length_pos_iff.mpr h
    rw [List.length_drop]
    omega

/-- The pieces make up the bytes. -/
theorem flatten_chunks (size : Nat) (bytes : Bytes) : (chunks size bytes).flatten = bytes := by
  fun_induction chunks size bytes with
  | case1 => rfl
  | case2 bytes h ih => rw [List.flatten_cons, ih, List.take_append_drop]

/-! ### Text -/

/-- The text that the bytes spell in UTF-8, if they do. -/
def text? (bytes : Bytes) : Option String :=
  String.fromUTF8? ⟨bytes.toArray⟩

/-- The UTF-8 bytes of a text. -/
def ofText (text : String) : Bytes :=
  text.toByteArray.data.toList

/-- Every text reads back from its own bytes. -/
@[simp] theorem text?_ofText (text : String) : text? (ofText text) = some text := by
  have h : (⟨(ofText text).toArray⟩ : ByteArray) = text.toByteArray := by
    simp [ofText]
  unfold text? String.fromUTF8?
  rw [h]
  simp [text.isValidUTF8, String.fromUTF8]

/-- Only the bytes of a text spell it. -/
theorem text?_eq_some_iff {bytes : Bytes} {text : String} :
    text? bytes = some text ↔ bytes = ofText text := by
  constructor
  · intro h
    unfold text? String.fromUTF8? at h
    split at h
    · cases h
      rfl
    · cases h
  · rintro rfl
    exact text?_ofText text

end Bytes

end StakeLedger
