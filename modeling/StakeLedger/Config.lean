/-
**The configuration.**

A configuration is read from a TOML document, in which every key may be missing and keys of no
meaning are passed over.  Settings that belong together form a section, which is a table, or an
array of the values in the order of their names.  What was read is used only if it is consistent.

Main definitions:

* `StakeLedger.Config`, `StakeLedger.Config.validate` — configurations and their consistency;
* `StakeLedger.Config.ofText`, `StakeLedger.Config.ofFileContent` — reading a configuration;
* `StakeLedger.Config.toText` — writing one.
-/
import StakeLedger.Bytes
import StakeLedger.LogFormat
import StakeLedger.Params
import StakeLedger.Toml.Document
import StakeLedger.Toml.Writer

set_option autoImplicit false

namespace StakeLedger

/-- The settings of a node. -/
structure Config where
  logFormat : LogFormat := .human
  /-- The filter of the log. -/
  logLevel : String := "info"
  /-- The size of the largest message that is taken in. -/
  maxMessageSize : Nat := 16 * 1024 * 1024
  params : Params := .mainNetwork
  deriving DecidableEq, Repr, Inhabited

namespace Config

/-- Why a configuration is inconsistent. -/
inductive Fault
  | noMessages
  | params (fault : Params.Fault)
  deriving DecidableEq, Repr

/-- The wording of a fault. -/
def Fault.message : Fault → String
  | .noMessages => "ipc.max_message_size must be positive"
  | .params fault => fault.message

/-- Why a configuration cannot be read or written. -/
inductive Error
  /-- There is no text to read. -/
  | unreadable
  /-- The text is no TOML document of the right form, or a setting has no TOML form. -/
  | malformed
  | invalid (fault : Fault)
  deriving DecidableEq, Repr

/-- The wording of an inconsistency. -/
def Error.invalidMessage (fault : Fault) : String := s!"invalid config: {fault.message}"

/-- Whether a configuration is consistent; of several faults the first is given. -/
def validate (config : Config) : Except Fault Unit :=
  if config.maxMessageSize = 0 then .error .noMessages
  else config.params.validate.mapError .params

/-! ### Reading -/

open Toml (Item Entries)

/-- A setting that no integer below zero may be given to. -/
def natural? : Item → Option Nat
  | .integer n => if 0 ≤ n then some n.toNat else none
  | _ => none

/-- The values of a section whose settings have the given names and defaults.  An array gives them
in order, and a date gives none. -/
def readSection? (settings : List (String × Nat)) : Option Item → Option (List Nat)
  | none => some (settings.map Prod.snd)
  | some (.table _ entries) =>
      settings.mapM fun (name, default) =>
        match Entries.get? entries name with
        | some item => natural? item
        | none => some default
  | some (.array items) => inOrder items
  | some (.tables elements) => inOrder (elements.map (Item.table .header))
  | some (.date _) => some (settings.map Prod.snd)
  | some _ => none
where
  /-- The values that items give in order, and the defaults of the settings after them. -/
  inOrder (items : List Item) : Option (List Nat) := do
    let values ← (items.take settings.length).mapM natural?
    return values ++ (settings.drop items.length).map Prod.snd

/-- Whether an item holds nothing. -/
def holdsNothing : Item → Bool
  | .table _ entries => entries.isEmpty
  | .array items => items.isEmpty
  | _ => false

/-- The log format that an item means: its name, or a table of one key, the name, that holds
nothing. -/
def readLogFormat? : Item → Option LogFormat
  | .string name => LogFormat.ofName? name
  | .table _ [(name, item)] => if holdsNothing item then LogFormat.ofName? name else none
  | _ => none

/-- The log level that an item means. -/
def readLogLevel? : Item → Option String
  | .string level => some level
  | _ => none

/-- What `read` makes of the item under a key, or the default. -/
def setting? {α : Type} (entries : Entries) (name : String) (default : α)
    (read : Item → Option α) : Option α :=
  match entries.get? name with
  | some item => read item
  | none => some default

/-- The parameters that a section means. -/
def readParams? (item : Option Item) : Option Params := do
  let defaults := Params.mainNetwork
  let settings :=
    [("unstake_slot_max", defaults.slotMax), ("unstake_lock_min", defaults.lockMin),
      ("unstake_lock_max", defaults.lockMax), ("reward_point", defaults.rewardPoint)]
  match ← readSection? settings item with
  | [slotMax, lockMin, lockMax, rewardPoint] =>
      return { slotMax, lockMin, lockMax, rewardPoint }
  | _ => none

/-- The configuration that the entries of a document mean. -/
def ofEntries? (entries : Entries) : Option Config := do
  let defaults : Config := {}
  let logFormat ← setting? entries "log_format" defaults.logFormat readLogFormat?
  let logLevel ← setting? entries "log_level" defaults.logLevel readLogLevel?
  let sizes ←
    readSection? [("max_message_size", defaults.maxMessageSize)] (entries.get? "ipc")
  let maxMessageSize ← sizes.head?
  let params ← readParams? (entries.get? "params")
  return { logFormat, logLevel, maxMessageSize, params }

/-- The consistent configuration that a text means. -/
def ofText (text : String) : Except Error Config :=
  match (Entries.ofText? text).bind ofEntries? with
  | none => .error .malformed
  | some config => do
      config.validate.mapError .invalid
      return config

/-- The consistent configuration that the content of a file means, if there is a file and it holds
text. -/
def ofFileContent (content : Option Bytes) : Except Error Config :=
  match content.bind Bytes.text? with
  | none => .error .unreadable
  | some text => ofText text

/-! ### Writing -/

/-- The section with a name and the lines of its integers. -/
def writeSection? (name : String) (settings : List (String × Nat)) : Option String := do
  let lines ← settings.mapM fun (key, n) => (Toml.writeInteger n).map (Toml.writeKey key)
  return s!"\n[{name}]\n" ++ String.join lines

/-- The written form of a configuration, if all its integers have one. -/
def toText (config : Config) : Except Error String :=
  let params := config.params
  let written : Option String := do
    let ipc ← writeSection? "ipc" [("max_message_size", config.maxMessageSize)]
    let params ← writeSection? "params"
      [("unstake_slot_max", params.slotMax), ("unstake_lock_min", params.lockMin),
        ("unstake_lock_max", params.lockMax), ("reward_point", params.rewardPoint)]
    return Toml.writeKey "log_format" (Toml.writeString config.logFormat.text) ++
      Toml.writeKey "log_level" (Toml.writeString config.logLevel) ++ ipc ++ params
  match written with
  | some text => .ok text
  | none => .error .malformed

end Config

end StakeLedger
