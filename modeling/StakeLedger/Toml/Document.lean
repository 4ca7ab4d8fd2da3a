/-
**TOML documents.**

A document is a list of key lines, followed by sections: a header with the key lines below it.
Blank lines and comments may stand anywhere between lines.  Arrays may run over several lines and
end in a comma; inline tables may do neither.

Main definitions:

* `StakeLedger.Toml.readKey` — dotted keys;
* `StakeLedger.Toml.readValue` — values, to a limited depth;
* `StakeLedger.Toml.Document`, `StakeLedger.Toml.Document.entries?` — the lines of a document, and
  the table that they make, if they agree;
* `StakeLedger.Toml.Entries.ofText?` — the table that a text spells.
-/
import StakeLedger.Toml.Item
import StakeLedger.Toml.Scalar

set_option autoImplicit false

namespace StakeLedger.Toml

open Reader

/-- From this number of parts on a key is refused, and from this depth on a value. -/
def nestingLimit : Nat := 80

/-! ### Keys -/

/-- A character that a key may hold without quotes. -/
def isBare (c : Char) : Bool := c.isAlphanum || c == '-' || c == '_'

/-- One part of a key. -/
def readKeyPart : Reader String :=
  readLineString <|> (do
    let first ← satisfying isBare
    let rest ← Reader.takeWhile isBare
    return String.ofList (first :: rest))

/-- A key: the path to a table, and the name under which that table holds the item. -/
def readKey : Reader (List String × String) := do
  let parts ← separated (skipBlanks *> readKeyPart <* skipBlanks) '.'
  match parts.getLast? with
  | some name => if parts.length < nestingLimit then return (parts.dropLast, name) else failure
  | none => failure

/-! ### Values -/

/-- A key with its value: the path, the name and the item. -/
abbrev Pair := List String × String × Item

/-- A key, the sign of equality and a value. -/
def readPair (value : Reader Item) : Reader Pair := do
  let (path, name) ← readKey
  char '='
  skipBlanks
  let item ← value
  return (path, name, item)

/-- A value that holds no other. -/
def readScalar : Reader Item :=
  Item.string <$> readString <|>
  chars ['t', 'r', 'u', 'e'] *> pure (Item.boolean true) <|>
  chars ['f', 'a', 'l', 's', 'e'] *> pure (Item.boolean false) <|>
  Item.date <$> readDate <|>
  Item.float <$> readFloat <|>
  Item.integer <$> readInteger

/-- An array. -/
def readArray (value : Reader Item) : Reader Item := do
  char '['
  let items ←
    (separated (skipLines *> value <* skipLines) ',' <* perhaps (char ',')) <|> pure []
  skipLines
  char ']'
  return .array items

/-- An inline table. -/
def readInlineTable (value : Reader Item) : Reader Item := do
  char '\x7b'
  let pairs ← separated (readPair value <* skipBlanks) ',' <|> pure []
  skipBlanks
  char '\x7d'
  match Entries.setAll? pairs [] with
  | some entries => return .table .inline entries
  | none => failure

/-- A value inside which others are nested at most `depth` deep. -/
def readValue : (depth : Nat) → Reader Item
  | 0 => readScalar
  | depth + 1 =>
      readScalar <|> readArray (readValue depth) <|> readInlineTable (readValue depth)

/-! ### Lines -/

/-- The rest of a line after a header or a value. -/
def endOfLine : Reader Unit := do
  skipBlanks
  let _ ← perhaps comment
  newline <|> atEnd

/-- The key lines from here on. -/
def readPairs : Reader (List Pair) :=
  many (skipLines *> readPair (readValue (nestingLimit - 1)) <* endOfLine)

/-- A header with the key lines below it. -/
structure Section where
  /-- Whether the header opens an element of an array of tables. -/
  repeated : Bool
  path : List String
  name : String
  pairs : List Pair

/-- The header of an element of an array of tables. -/
def readRepeatedHeader : Reader (Bool × List String × String) := do
  chars ['[', '[']
  let (path, name) ← readKey
  chars [']', ']']
  return (true, path, name)

/-- The header of a table. -/
def readTableHeader : Reader (Bool × List String × String) := do
  char '['
  let (path, name) ← readKey
  char ']'
  return (false, path, name)

/-- A header with the key lines below it. -/
def readSection : Reader Section := do
  skipLines
  -- two brackets never open the header of a table, since no key starts with one
  let (repeated, path, name) ← readRepeatedHeader <|> readTableHeader
  endOfLine
  let pairs ← readPairs
  return { repeated, path, name, pairs }

/-- A document: the key lines before the first header, and the sections. -/
structure Document where
  pairs : List Pair
  sections : List Section

/-- A document, which may begin with a byte order mark. -/
def readDocument : Reader Document := do
  let _ ← perhaps (char (Char.ofNat 0xfeff))
  let pairs ← readPairs
  let sections ← many readSection
  skipLines
  atEnd
  return { pairs, sections }

/-! ### The table that a document makes -/

/-- Adds a section to the entries of the whole document. -/
def Section.addTo? (entries : Entries) (part : Section) : Option Entries :=
  if part.repeated then entries.append? part.path part.name part.pairs
  else entries.open? part.path part.name part.pairs

/-- The entries that a document makes, if nothing is set or opened twice. -/
def Document.entries? (document : Document) : Option Entries := do
  document.sections.foldlM Section.addTo? (← Entries.setAll? document.pairs [])

/-- The entries that a text spells. -/
def Entries.ofText? (text : String) : Option Entries := do
  let (document, _) ← readDocument text.toList
  document.entries?

end StakeLedger.Toml
