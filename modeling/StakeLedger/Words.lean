/-
**Words of a machine.**

A word holds the numbers below a power of two.  A result that no word holds, a difference below
zero and a quotient by zero are missing.

Main definitions:

* `StakeLedger.Words.within?`, `StakeLedger.Words.sub?`, `StakeLedger.Words.div?` — results that
  words of a machine can hold.
-/
set_option autoImplicit false

namespace StakeLedger.Words

/-- How many numbers a word of 64 bits can hold. -/
def size64 : Nat := 0x10000000000000000

/-- How many numbers a word of 128 bits can hold. -/
def size128 : Nat := 0x100000000000000000000000000000000

/-- A result, if a word of the given size can hold it. -/
def within? (size n : Nat) : Option Nat := if n < size then some n else none

/-- A difference, if it is not negative. -/
def sub? (a b : Nat) : Option Nat := if b ≤ a then some (a - b) else none

/-- A quotient rounded down, if there is one. -/
def div? (a b : Nat) : Option Nat := if b = 0 then none else some (a / b)

variable {a b n size : Nat}

theorem within?_of_lt (h : n < size) : within? size n = some n := if_pos h

theorem sub?_of_le (h : b ≤ a) : sub? a b = some (a - b) := if_pos h

theorem div?_of_pos (h : 0 < b) : div? a b = some (a / b) := if_neg (Nat.ne_of_gt h)

end StakeLedger.Words
