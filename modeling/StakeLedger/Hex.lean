/-
**Hexadecimal text of byte strings.**

Writing uses two lower-case digits a byte.  Reading takes digits of either case and reports the
first place where a text is no such string, in units of its UTF-8 bytes: an odd number of bytes
first, and then the first byte that is no digit.

Main definitions:

* `StakeLedger.Hex.digits`, `StakeLedger.Hex.encode` — the written form;
* `StakeLedger.Hex.decode` — reading it back;
* `StakeLedger.Hex.Error` — why a text is not the form of any byte string.

Main results:

* `StakeLedger.Hex.decode_digits` — what was written reads back.
-/
import StakeLedger.Bytes

set_option autoImplicit false

namespace StakeLedger.Hex

/-! ### Writing -/

/-- The lower-case digit of a value below sixteen. -/
def digit (n : Nat) : Char :=
  if n < 10 then Char.ofNat (48 + n) else Char.ofNat (87 + n)

/-- The two digits of a byte, high half first. -/
def pair (b : UInt8) : List Char :=
  [digit (b.toNat / 16), digit (b.toNat % 16)]

/-- The digits of a byte string. -/
def digits (bytes : Bytes) : List Char :=
  bytes.flatMap pair

/-- The written form of a byte string. -/
def encode (bytes : Bytes) : String :=
  String.ofList (digits bytes)

@[simp] theorem digits_nil : digits [] = [] := rfl

@[simp] theorem digits_cons (b : UInt8) (bytes : Bytes) :
    digits (b :: bytes) = pair b ++ digits bytes := rfl

@[simp] theorem length_digits (bytes : Bytes) : (digits bytes).length = 2 * bytes.length := by
  induction bytes with
  | nil => rfl
  | cons b bytes ih =>
      simp only [digits_cons, pair, List.length_append, List.length_cons, List.length_nil, ih]
      omega

@[simp] theorem toList_encode (bytes : Bytes) : (encode bytes).toList = digits bytes := by
  simp [encode]

/-! ### Reading -/

/-- Why a text is not the written form of a byte string. -/
inductive Error
  /-- The text has an odd number of bytes. -/
  | oddLength
  /-- The byte `byte` of the text, at `position`, is no digit. -/
  | invalidCharacter (byte : UInt8) (position : Nat)
  deriving DecidableEq, Repr

/-- A byte, named by the Latin-1 character of its number, between apostrophes; what could not be
told apart on a screen is written as an escape. -/
def quoted (b : UInt8) : String :=
  let n := b.toNat
  let inner :=
    if n = 0 then "\\0"
    else if n = 9 then "\\t"
    else if n = 10 then "\\n"
    else if n = 13 then "\\r"
    else if n = 39 then "\\'"
    else if n = 92 then "\\\\"
    else if n < 32 ∨ (127 ≤ n ∧ n < 160) ∨ n = 173 then
      "\\u\x7b" ++ String.ofList (Nat.toDigits 16 n) ++ "\x7d"
    else String.singleton (Char.ofNat n)
  "'" ++ inner ++ "'"

/-- The wording of an error. -/
def Error.message : Error → String
  | .oddLength => "Odd number of digits"
  | .invalidCharacter byte position =>
      s!"Invalid character {quoted byte} at position {position}"

/-- The value of a digit of either case. -/
def value? (c : Char) : Option Nat :=
  let n := c.toNat
  if 48 ≤ n ∧ n ≤ 57 then some (n - 48)
  else if 97 ≤ n ∧ n ≤ 102 then some (n - 87)
  else if 65 ≤ n ∧ n ≤ 70 then some (n - 55)
  else none

/-- The first byte of the UTF-8 form of a character. -/
def leadByte (c : Char) : UInt8 :=
  let n := c.toNat
  if n < 0x80 then UInt8.ofNat n
  else if n < 0x800 then UInt8.ofNat (0xc0 + n / 0x40)
  else if n < 0x10000 then UInt8.ofNat (0xe0 + n / 0x1000)
  else UInt8.ofNat (0xf0 + n / 0x40000)

/-- The value of the digit `c` that stands at `position`. -/
def valueAt (position : Nat) (c : Char) : Except Error Nat :=
  match value? c with
  | some n => .ok n
  | none => .error (.invalidCharacter (leadByte c) position)

/-- The bytes that the digits from `position` on spell, two digits a byte. -/
def decodePairs (position : Nat) : List Char → Except Error Bytes
  | [] => .ok []
  | [c] => do
      -- an even number of bytes leaves one character over only after a wide one, which is no digit
      let _ ← valueAt position c
      throw .oddLength
  | hi :: lo :: rest => do
      let h ← valueAt position hi
      let l ← valueAt (position + 1) lo
      let bytes ← decodePairs (position + 2) rest
      return UInt8.ofNat (16 * h + l) :: bytes

/-- How many bytes the UTF-8 form of a text has. -/
def utf8Length (text : List Char) : Nat :=
  text.foldr (fun c length => c.utf8Size + length) 0

/-- The byte string that a text is the written form of. -/
def decode (text : List Char) : Except Error Bytes :=
  if utf8Length text % 2 = 1 then .error .oddLength else decodePairs 0 text

/-! ### What was written reads back -/

/-- Each digit has the value it was written for, and takes one byte. -/
theorem value?_digit {n : Nat} (h : n < 16) :
    value? (digit n) = some n ∧ (digit n).utf8Size = 1 := by
  have all : ∀ k : Fin 16, value? (digit k) = some k.val ∧ (digit k).utf8Size = 1 := by decide
  exact all ⟨n, h⟩

theorem decodePairs_digits (position : Nat) (bytes : Bytes) :
    decodePairs position (digits bytes) = .ok bytes := by
  induction bytes generalizing position with
  | nil => rfl
  | cons b bytes ih =>
      have hb : b.toNat < 256 := b.toNat_lt
      have hi := (value?_digit (n := b.toNat / 16) (by omega)).1
      have lo := (value?_digit (n := b.toNat % 16) (by omega)).1
      have join : 16 * (b.toNat / 16) + b.toNat % 16 = b.toNat := by omega
      simp [pair, decodePairs, valueAt, hi, lo, ih, join, bind, Except.bind, pure, Except.pure]

theorem utf8Length_digits (bytes : Bytes) : utf8Length (digits bytes) = 2 * bytes.length := by
  induction bytes with
  | nil => rfl
  | cons b bytes ih =>
      have hb : b.toNat < 256 := b.toNat_lt
      have hi := (value?_digit (n := b.toNat / 16) (by omega)).2
      have lo := (value?_digit (n := b.toNat % 16) (by omega)).2
      simp only [utf8Length] at ih
      simp only [utf8Length, digits_cons, pair, List.cons_append, List.nil_append, List.foldr_cons,
        hi, lo, ih, List.length_cons]
      omega

/-- What was written reads back. -/
theorem decode_digits (bytes : Bytes) : decode (digits bytes) = .ok bytes := by
  simp [decode, utf8Length_digits, decodePairs_digits]

end StakeLedger.Hex
