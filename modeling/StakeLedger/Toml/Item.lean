/-
**TOML items and how tables grow.**

A table grows by keys that are set in it and by headers that open tables below it.  A dotted key
reaches through tables that only keys or deeper headers have made so far; a header reaches through
every table but an inline one, and through the last table of an array of tables.  Nothing is ever
set or opened twice.

Main definitions:

* `StakeLedger.Toml.Item`, `StakeLedger.Toml.Entries` — items and the entries of a table;
* `StakeLedger.Toml.Entries.set?`, `StakeLedger.Toml.Entries.open?`,
  `StakeLedger.Toml.Entries.append?` — setting a key, opening a table, and opening the next table of
  an array of tables.
-/
set_option autoImplicit false

namespace StakeLedger.Toml

/-- How a table came about. -/
inductive Origin
  /-- By a header of its own, or as the document. -/
  | header
  /-- By the header of a table below it. -/
  | implied
  /-- By a dotted key. -/
  | dotted
  /-- Written out as a value. -/
  | inline
  deriving DecidableEq, Repr

/-- A TOML item.  Floating point numbers and dates are kept as they are written. -/
inductive Item
  | string (text : String)
  | integer (n : Int)
  | boolean (b : Bool)
  | float (text : String)
  | date (text : String)
  | array (items : List Item)
  | table (origin : Origin) (entries : List (String × Item))
  /-- An array of tables that headers opened. -/
  | tables (elements : List (List (String × Item)))
  deriving Repr, Inhabited

/-- The entries of a table, each key once. -/
abbrev Entries := List (String × Item)

namespace Entries

/-- The item under a key. -/
def get? (entries : Entries) (key : String) : Option Item :=
  (entries.find? fun entry => entry.1 == key).map Prod.snd

/-- Replaces what is under a key, if anything, by what `change` makes of it. -/
def alter? (key : String) (change : Option Item → Option Item) : Entries → Option Entries
  | [] => (change none).map fun item => [(key, item)]
  | (k, item) :: rest =>
      if k = key then (change (some item)).map fun item => (k, item) :: rest
      else (alter? key change rest).map fun rest => (k, item) :: rest

/-- Changes the table that a path leads to from a table of the given origin.  Tables on the way that
do not exist are made with the origin `made`; those that exist must be `open`. -/
def alterAt? (made : Origin) (isOpen : Origin → Bool)
    (change : Origin → Entries → Option Entries) :
    (path : List String) → Origin → Entries → Option Entries
  | [], origin, entries => change origin entries
  | key :: path, _, entries =>
      alter? key
        (fun
          | none => (alterAt? made isOpen change path made []).map (Item.table made)
          | some (.table origin below) =>
              if isOpen origin then
                (alterAt? made isOpen change path origin below).map (Item.table origin)
              else none
          | some (.tables elements) =>
              match elements.getLast? with
              | none => none
              | some last =>
                  (alterAt? made isOpen change path .header last).map fun last =>
                    Item.tables (elements.dropLast ++ [last])
          | some _ => none)
        entries

/-- Adds a key that is not there yet. -/
def add? (key : String) (item : Item) : Entries → Option Entries :=
  alter? key fun
    | none => some item
    | some _ => none

/-- Sets the key at the end of a dotted path. -/
def set? (path : List String) (key : String) (item : Item) (entries : Entries) : Option Entries :=
  let isOpen : Origin → Bool
    | .implied => true
    | .dotted => true
    | _ => false
  let change (origin : Origin) (entries : Entries) : Option Entries :=
    if path.isEmpty || origin == .dotted then entries.add? key item else none
  entries.alterAt? .dotted isOpen change path .header

/-- Sets keys one after the other. -/
def setAll? (pairs : List (List String × String × Item)) (entries : Entries) : Option Entries :=
  pairs.foldlM (fun entries (path, key, item) => entries.set? path key item) entries

/-- Changes the table above the one that a header names. -/
def alterAbove? (path : List String) (change : Entries → Option Entries) (entries : Entries) :
    Option Entries :=
  entries.alterAt? .implied (fun origin => origin != .inline) (fun _ => change) path .header

/-- Opens the table that a header names and sets keys in it.  A table that only headers of tables
below it have made so far may still be opened. -/
def open? (path : List String) (key : String) (pairs : List (List String × String × Item))
    (entries : Entries) : Option Entries :=
  let change : Option Item → Option Item
    | none => (setAll? pairs []).map (Item.table .header)
    | some (.table .implied below) => (setAll? pairs below).map (Item.table .header)
    | some _ => none
  entries.alterAbove? path (alter? key change)

/-- Opens the next table of the array of tables that a header names and sets keys in it. -/
def append? (path : List String) (key : String) (pairs : List (List String × String × Item))
    (entries : Entries) : Option Entries :=
  let change : Option Item → Option Item
    | none => (setAll? pairs []).map fun element => Item.tables [element]
    | some (.tables elements) =>
        (setAll? pairs []).map fun element => Item.tables (elements ++ [element])
    | some _ => none
  entries.alterAbove? path (alter? key change)

end Entries

end StakeLedger.Toml
