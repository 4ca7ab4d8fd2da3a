/-
**TOML strings, numbers and dates.**

Strings are basic, with escapes, or literal, and each of them on one line or on several.  Integers
have 64 bits; a decimal one has no leading zero, and an underscore may stand between two digits.
Floating point numbers and dates are checked and kept as they are written; a positive number that
rounds to infinity is none.

Main definitions:

* `StakeLedger.Toml.readString` — strings;
* `StakeLedger.Toml.readInteger`, `StakeLedger.Toml.readFloat` — numbers;
* `StakeLedger.Toml.readDate` — dates, times, and dates with times.
-/
import StakeLedger.Toml.Reader

set_option autoImplicit false

namespace StakeLedger.Toml

open Reader

/-! ### Characters -/

/-- A space or a tab. -/
def isBlank (c : Char) : Bool := c == ' ' || c == '\t'

/-- A character that may stand in a comment or unescaped in a string: no control character but the
tab. -/
def isPrintable (c : Char) : Bool :=
  c == '\t' || (decide (0x20 ≤ c.toNat) && c.toNat != 0x7f)

/-- A decimal digit. -/
def isDecimal (c : Char) : Bool := decide (48 ≤ c.toNat) && decide (c.toNat ≤ 57)

/-- An octal digit. -/
def isOctal (c : Char) : Bool := decide (48 ≤ c.toNat) && decide (c.toNat ≤ 55)

/-- A binary digit. -/
def isBinary (c : Char) : Bool := c == '0' || c == '1'

/-- A hexadecimal digit of either case. -/
def isHexadecimal (c : Char) : Bool :=
  isDecimal c || (decide (97 ≤ c.toNat) && decide (c.toNat ≤ 102)) ||
    (decide (65 ≤ c.toNat) && decide (c.toNat ≤ 70))

/-- The value of a digit. -/
def digitValue (c : Char) : Nat :=
  if c.toNat < 65 then c.toNat - 48
  else if c.toNat < 97 then c.toNat - 55
  else c.toNat - 87

/-- The number that digits spell in a base. -/
def digitsValue (base : Nat) (digits : List Char) : Nat :=
  digits.foldl (fun n c => n * base + digitValue c) 0

/-! ### White space -/

/-- Blanks up to the end of the line. -/
def skipBlanks : Reader Unit := do
  let _ ← Reader.takeWhile isBlank

/-- The end of a line inside the text. -/
def newline : Reader Unit := chars ['\n'] <|> chars ['\r', '\n']

/-- A comment up to the end of its line. -/
def comment : Reader Unit := do
  char '#'
  let _ ← Reader.takeWhile isPrintable

/-- Blanks, comments and ends of lines. -/
def skipLines : Reader Unit := do
  let _ ← many ((do let _ ← satisfying isBlank) <|> newline <|> comment)

/-! ### Strings -/

/-- The character with a number, if the number is that of a character. -/
def charOfNat? (n : Nat) : Option Char :=
  if n < 0xd800 ∨ (0xdfff < n ∧ n < 0x110000) then some (Char.ofNat n) else none

/-- The character that hexadecimal digits number. -/
def charOfDigits? (digits : List Char) : Option Char :=
  if digits.all isHexadecimal then charOfNat? (digitsValue 16 digits) else none

/-- The character that the letter after a backslash stands for. -/
def escaped? : Char → Option Char
  | 'b' => some (Char.ofNat 8)
  | 't' => some '\t'
  | 'n' => some '\n'
  | 'f' => some (Char.ofNat 12)
  | 'r' => some '\r'
  | '"' => some '"'
  | '\\' => some '\\'
  | _ => none

/-- The rest of a basic string on one line, after its opening quote. -/
def basicRest : List Char → Option (List Char × List Char)
  | [] => none
  | '"' :: rest => some ([], rest)
  | '\\' :: 'u' :: a :: b :: c :: d :: rest => do
      let first ← charOfDigits? [a, b, c, d]
      let (text, rest) ← basicRest rest
      return (first :: text, rest)
  | '\\' :: 'U' :: a :: b :: c :: d :: e :: f :: g :: h :: rest => do
      let first ← charOfDigits? [a, b, c, d, e, f, g, h]
      let (text, rest) ← basicRest rest
      return (first :: text, rest)
  | '\\' :: c :: rest => do
      let first ← escaped? c
      let (text, rest) ← basicRest rest
      return (first :: text, rest)
  | c :: rest =>
      if isPrintable c && c != '\\' then do
        let (text, rest) ← basicRest rest
        return (c :: text, rest)
      else none

/-- Whether only blanks stand before the end of the line. -/
def lineEnds (text : List Char) : Bool :=
  match text.dropWhile isBlank with
  | '\n' :: _ => true
  | '\r' :: '\n' :: _ => true
  | _ => false

/-- The rest of a basic string on several lines, after its opening quotes.  While `skipping`, after
a backslash at the end of a line, blanks and ends of lines are left out.  Up to two quotes may stand
before the closing ones. -/
def basicLinesRest (skipping : Bool) : List Char → Option (List Char × List Char)
  | [] => none
  | '"' :: '"' :: '"' :: '"' :: '"' :: rest => some (['"', '"'], rest)
  | '"' :: '"' :: '"' :: '"' :: rest => some (['"'], rest)
  | '"' :: '"' :: '"' :: rest => some ([], rest)
  | '\\' :: 'u' :: a :: b :: c :: d :: rest => do
      let first ← charOfDigits? [a, b, c, d]
      let (text, rest) ← basicLinesRest false rest
      return (first :: text, rest)
  | '\\' :: 'U' :: a :: b :: c :: d :: e :: f :: g :: h :: rest => do
      let first ← charOfDigits? [a, b, c, d, e, f, g, h]
      let (text, rest) ← basicLinesRest false rest
      return (first :: text, rest)
  | '\\' :: c :: rest =>
      if lineEnds (c :: rest) then basicLinesRest true (c :: rest)
      else do
        let first ← escaped? c
        let (text, rest) ← basicLinesRest false rest
        return (first :: text, rest)
  | '\r' :: '\n' :: rest =>
      if skipping then basicLinesRest true rest
      else do
        let (text, rest) ← basicLinesRest false rest
        return ('\n' :: text, rest)
  | c :: rest =>
      if skipping && (isBlank c || c == '\n') then basicLinesRest true rest
      else if (isPrintable c && c != '\\') || c == '\n' then do
        let (text, rest) ← basicLinesRest false rest
        return (c :: text, rest)
      else none

/-- The rest of a literal string on one line, after its opening quote. -/
def literalRest : List Char → Option (List Char × List Char)
  | [] => none
  | '\'' :: rest => some ([], rest)
  | c :: rest =>
      if isPrintable c then do
        let (text, rest) ← literalRest rest
        return (c :: text, rest)
      else none

/-- The rest of a literal string on several lines, after its opening quotes.  Up to two quotes may
stand before the closing ones. -/
def literalLinesRest : List Char → Option (List Char × List Char)
  | [] => none
  | '\'' :: '\'' :: '\'' :: '\'' :: '\'' :: rest => some (['\'', '\''], rest)
  | '\'' :: '\'' :: '\'' :: '\'' :: rest => some (['\''], rest)
  | '\'' :: '\'' :: '\'' :: rest => some ([], rest)
  | '\r' :: '\n' :: rest => do
      let (text, rest) ← literalLinesRest rest
      return ('\n' :: text, rest)
  | c :: rest =>
      if isPrintable c || c == '\n' then do
        let (text, rest) ← literalLinesRest rest
        return (c :: text, rest)
      else none

/-- The end of a line that follows the opening quotes of a string on several lines is left out. -/
def afterOpening (text : List Char) : List Char :=
  match text with
  | '\n' :: rest => rest
  | '\r' :: '\n' :: rest => rest
  | _ => text

/-- A string on one line, as a key may be. -/
def readLineString : Reader String := fun text => do
  let (content, rest) ← match text with
    | '"' :: rest => basicRest rest
    | '\'' :: rest => literalRest rest
    | _ => none
  return (String.ofList content, rest)

/-- A string. -/
def readString : Reader String := fun text =>
  match text with
  | '"' :: '"' :: '"' :: rest => do
      let (content, rest) ← basicLinesRest false (afterOpening rest)
      return (String.ofList content, rest)
  | '\'' :: '\'' :: '\'' :: rest => do
      let (content, rest) ← literalLinesRest (afterOpening rest)
      return (String.ofList content, rest)
  | _ => readLineString text

/-! ### Numbers -/

/-- Digits, between two of which an underscore may stand; the underscores are left out. -/
def digitRun (isDigit : Char → Bool) : Reader (List Char) := do
  let first ← satisfying isDigit
  let rest ← many ((char '_' *> satisfying isDigit) <|> satisfying isDigit)
  return first :: rest

/-- Decimal digits without a leading zero. -/
def decimalRun : Reader (List Char) :=
  (do
    let digits ← digitRun isDecimal
    if digits.head? == some '0' then failure else return digits) <|>
  (do
    char '0'
    return ['0'])

/-- The sign before a number; whether it is negative. -/
def readSign : Reader Bool :=
  (do char '-'; return true) <|> (do char '+'; return false) <|> return false

/-- An integer of 64 bits. -/
def inRange (n : Int) : Bool := 
  decide (-0x8000000000000000 ≤ n) && decide (n < 0x8000000000000000)

/-- A natural number in another base than ten, after the letters that name the base. -/
def readBased (lead : List Char) (base : Nat) (isDigit : Char → Bool) : Reader Int := do
  chars lead
  let digits ← digitRun isDigit
  return digitsValue base digits

/-- An integer. -/
def readInteger : Reader Int := do
  let n ← readBased ['0', 'x'] 16 isHexadecimal <|> readBased ['0', 'o'] 8 isOctal <|>
    readBased ['0', 'b'] 2 isBinary <|>
    (do
      let negative ← readSign
      let n : Int := digitsValue 10 (← decimalRun)
      return if negative then -n else n)
  if inRange n then return n else failure

/-- Whether `mantissa * 10 ^ exponent` rounds to infinity as a number of 64 bits: it does from the
middle between the greatest such number and the next power of two on.  The number of digits decides
where it can, so that no power is larger than need be. -/
def roundsToInfinity (mantissa : Nat) (exponent : Int) : Bool :=
  let middle := Nat.pow 2 1024 - Nat.pow 2 970
  let magnitude : Int := (Nat.toDigits 10 mantissa).length + exponent
  if mantissa = 0 ∨ magnitude ≤ 308 then false
  else if 310 < magnitude then true
  else if 0 ≤ exponent then decide (middle ≤ mantissa * Nat.pow 10 exponent.toNat)
  else decide (middle * Nat.pow 10 (-exponent).toNat ≤ mantissa)

/-- The exponent of a floating point number. -/
def readExponent : Reader Int := do
  char 'e' <|> char 'E'
  let negative ← readSign
  let n : Int := digitsValue 10 (← digitRun isDecimal)
  return if negative then -n else n

/-- The digits of a floating point number after the point. -/
def readFraction : Reader (List Char) := do
  char '.'
  digitRun isDecimal

/-- A finite floating point number: its sign, digits and power of ten. -/
def readFinite : Reader (Bool × Nat × Int) := do
  let negative ← readSign
  let whole ← decimalRun
  let (fraction, exponent) ←
    (do
      let fraction ← readFraction
      let exponent ← perhaps readExponent
      return (fraction, exponent.getD 0)) <|>
    (do
      let exponent ← readExponent
      return ([], exponent))
  return (negative, digitsValue 10 (whole ++ fraction), exponent - fraction.length)

/-- The characters that a reader takes. -/
def spelling {α : Type} (reader : Reader α) : Reader String := fun text => do
  let (_, rest) ← reader text
  return (String.ofList (text.take (text.length - rest.length)), rest)

/-- A floating point number, an infinity, or no number. -/
def readFloat : Reader String :=
  spelling ((do
      let (negative, mantissa, exponent) ← readFinite
      if !negative && roundsToInfinity mantissa exponent then failure else return ()) <|>
    (do
      let _ ← readSign
      chars ['i', 'n', 'f'] <|> chars ['n', 'a', 'n']))

/-! ### Dates and times -/

/-- A number of `width` digits from `low` to `high`. -/
def readNumber (width low high : Nat) : Reader Nat := do
  let n := digitsValue 10 (← exactly isDecimal width)
  if low ≤ n ∧ n ≤ high then return n else failure

/-- How many days a month has. -/
def daysInMonth (year month : Nat) : Nat :=
  if month = 2 then
    if year % 4 = 0 ∧ (year % 100 ≠ 0 ∨ year % 400 = 0) then 29 else 28
  else if month = 4 ∨ month = 6 ∨ month = 9 ∨ month = 11 then 30
  else 31

/-- A day of the calendar. -/
def readDay : Reader Unit := do
  let year ← readNumber 4 0 9999
  char '-'
  let month ← readNumber 2 1 12
  char '-'
  let _ ← readNumber 2 1 (daysInMonth year month)

/-- A time of the day. -/
def readTime : Reader Unit := do
  let _ ← readNumber 2 0 23
  char ':'
  let _ ← readNumber 2 0 59
  char ':'
  let _ ← readNumber 2 0 60
  let _ ← perhaps (do
    char '.'
    let _ ← satisfying isDecimal
    Reader.takeWhile isDecimal)

/-- The distance of a time from the reference time. -/
def readOffset : Reader Unit :=
  char 'Z' <|> char 'z' <|> (do
    char '+' <|> char '-'
    let _ ← readNumber 2 0 23
    char ':'
    let _ ← readNumber 2 0 59)

/-- A date, a time, or a date with a time. -/
def readDate : Reader String :=
  spelling ((do
      readDay
      let _ ← perhaps (do
        char 'T' <|> char 't' <|> char ' '
        readTime
        perhaps readOffset)) <|>
    readTime)

end StakeLedger.Toml
