/-
**Writing TOML.**

A string is written in the plainest way that needs no escape: between double quotes, else literally
between single quotes, else on several lines between three quotes of either kind.  Only where none
of these can hold it are characters escaped.

Main definitions:

* `StakeLedger.Toml.StringForm`, `StakeLedger.Toml.StringForm.of` — the forms of a string, and the
  one that a text is written in;
* `StakeLedger.Toml.writeString`, `StakeLedger.Toml.writeInteger` — the written values;
* `StakeLedger.Toml.writeKey` — the line of a key.
-/
import StakeLedger.Toml.Scalar

set_option autoImplicit false

namespace StakeLedger.Toml

/-! ### The form of a string -/

/-- The forms in which a string may be written. -/
inductive StringForm
  | basic
  | literal
  | basicLines
  | literalLines
  deriving DecidableEq, Repr

/-- The length of the longest run of a character. -/
def longestRun (c : Char) (text : List Char) : Nat :=
  (text.foldl
    (fun (run, longest) d => if d = c then (run + 1, max longest (run + 1)) else (0, longest))
    (0, 0)).2

/-- A character that no literal string can hold. -/
def needsEscape (c : Char) : Bool := c != '\n' && !isPrintable c

/-- The form in which a text is written. -/
def StringForm.of (text : List Char) : StringForm :=
  let escapes := text.any needsEscape
  let backslash := text.contains '\\'
  let lines := text.contains '\n'
  let doubles := longestRun '"' text
  let singles := longestRun '\'' text
  if !escapes && !backslash && doubles = 0 && !lines then .basic
  else if !escapes && singles = 0 && !lines then .literal
  else if !escapes && !backslash && doubles ≤ 2 then .basicLines
  else if !escapes && singles ≤ 2 then .literalLines
  else if lines then .basicLines
  else .basic

/-! ### Escapes -/

/-- The letter that stands for a character after a backslash, if there is one. -/
def escapeLetter? : Char → Option Char
  | '\t' => some 't'
  | '\r' => some 'r'
  | '\\' => some '\\'
  | c =>
      if c.toNat = 8 then some 'b' else if c.toNat = 12 then some 'f' else none

/-- The escape of a character by its number. -/
def escapeNumber (c : Char) : List Char :=
  let digits := (Nat.toDigits 16 c.toNat).map Char.toUpper
  '\\' :: 'u' :: (List.replicate (4 - digits.length) '0' ++ digits)

/-- A text with escapes as between double quotes, of which `quotes` may stand unescaped in a row;
`run` of them stand just before.  Where `lines`, ends of lines stay as they are. -/
def escapeBasic (lines : Bool) (quotes : Nat) : (run : Nat) → List Char → List Char
  | _, [] => []
  | run, c :: rest =>
      if c = '"' then
        if run < quotes then c :: escapeBasic lines quotes (run + 1) rest
        else '\\' :: c :: escapeBasic lines quotes 0 rest
      else if c = '\n' then
        (if lines then [c] else ['\\', 'n']) ++ escapeBasic lines quotes 0 rest
      else
        let written :=
          match escapeLetter? c with
          | some letter => ['\\', letter]
          | none => if isPrintable c then [c] else escapeNumber c
        written ++ escapeBasic lines quotes 0 rest

/-! ### Values and lines -/

/-- What stands between the opening quotes and a text on several lines: an end of line, if the text
has one itself. -/
def leadIn (text : List Char) : List Char := if text.contains '\n' then ['\n'] else []

/-- The written form of a string. -/
def writeString (text : String) : String :=
  let content := text.toList
  let double := ['"', '"', '"']
  let single := ['\'', '\'', '\'']
  String.ofList <| match StringForm.of content with
    | .basic => ['"'] ++ escapeBasic false 0 0 content ++ ['"']
    | .literal => ['\''] ++ content ++ ['\'']
    | .basicLines => double ++ leadIn content ++ escapeBasic true 2 0 content ++ double
    | .literalLines => single ++ leadIn content ++ content ++ single

/-- The written form of a natural number, if it fits into the 64 bits of a TOML integer. -/
def writeInteger (n : Nat) : Option String :=
  if n < 0x8000000000000000 then some (toString n) else none

/-- The line that sets a key to a written value. -/
def writeKey (name value : String) : String := s!"{name} = {value}\n"

end StakeLedger.Toml
