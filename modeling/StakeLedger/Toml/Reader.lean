/-
**Reading text from the front.**

A reader takes characters from the front of a text and gives what they stand for, or fails and takes
none.  Of two alternatives the first that succeeds counts.

Main definitions:

* `StakeLedger.Toml.Reader` — readers, with sequence and choice;
* `StakeLedger.Toml.Reader.many`, `StakeLedger.Toml.Reader.separated` — repetition.
-/
set_option autoImplicit false

namespace StakeLedger.Toml

/-- What the front of a text stands for, together with the rest of the text. -/
abbrev Reader := StateT (List Char) Option

namespace Reader

variable {α : Type}

/-- A character of a class. -/
def satisfying (p : Char → Bool) : Reader Char := fun text =>
  match text with
  | c :: rest => if p c then some (c, rest) else none
  | [] => none

/-- The given character. -/
def char (c : Char) : Reader Unit := do
  let _ ← satisfying (· == c)

/-- The given characters. -/
def chars : List Char → Reader Unit
  | [] => pure ()
  | c :: rest => do
      char c
      chars rest

/-- All characters of a class from here on. -/
def takeWhile (p : Char → Bool) : Reader (List Char) := fun text =>
  some (text.takeWhile p, text.dropWhile p)

/-- Exactly `count` characters of a class. -/
def exactly (p : Char → Bool) : (count : Nat) → Reader (List Char)
  | 0 => pure []
  | count + 1 => do
      let c ← satisfying p
      let rest ← exactly p count
      return c :: rest

/-- Succeeds at the end of the text. -/
def atEnd : Reader Unit := fun text => if text.isEmpty then some ((), []) else none

/-- What a reader gives, if it succeeds. -/
def perhaps (reader : Reader α) : Reader (Option α) :=
  (some <$> reader) <|> pure none

/-- Repeats a reader at most `bound` times and up to its first failure. -/
def manyUpTo (reader : Reader α) : (bound : Nat) → Reader (List α)
  | 0 => pure []
  | bound + 1 => fun text =>
      match reader text with
      | none => some ([], text)
      | some (item, rest) => do
          let (items, rest) ← manyUpTo reader bound rest
          return (item :: items, rest)

/-- Repeats a reader up to its first failure.  Each turn takes a character at least, so the length
of the text bounds the turns. -/
def many (reader : Reader α) : Reader (List α) := fun text =>
  manyUpTo reader text.length text

/-- What a reader gives again and again, with the given character between two turns. -/
def separated (reader : Reader α) (separator : Char) : Reader (List α) := do
  let first ← reader
  let rest ← many (char separator *> reader)
  return first :: rest

end Reader

end StakeLedger.Toml
