/-
**Log formats.**

Main definitions:

* `StakeLedger.LogFormat`, `StakeLedger.LogFormat.text` — the formats and their names;
* `StakeLedger.LogFormat.ofText` — the format that a name means, in either case of its letters.

Main results:

* `StakeLedger.LogFormat.ofText_text` — every format reads back from its name.
-/
set_option autoImplicit false

namespace StakeLedger

/-- The form in which log lines are written. -/
inductive LogFormat
  /-- Lines for people to read. -/
  | human
  /-- One JSON object a line. -/
  | json
  deriving DecidableEq, Repr

namespace LogFormat

/-- The name of a format. -/
def text : LogFormat → String
  | .human => "human"
  | .json => "json"

/-- The format with a name, letter by letter. -/
def ofName? (name : String) : Option LogFormat :=
  [human, json].find? fun format => format.text == name

/-- A name that is none of a format. -/
structure Unknown where
  /-- The name in small letters. -/
  name : String
  deriving DecidableEq, Repr

/-- The wording of an unknown name. -/
def Unknown.message (unknown : Unknown) : String := s!"unknown log format: {unknown.name}"

/-- The format that a name means; only the letters of ASCII have two cases here. -/
def ofText (name : String) : Except Unknown LogFormat :=
  let name := name.toLower
  match ofName? name with
  | some format => .ok format
  | none => .error ⟨name⟩

@[simp] theorem ofName?_text (format : LogFormat) : ofName? format.text = some format := by
  cases format <;> decide

/-- The names have small letters only. -/
theorem toLower_text (format : LogFormat) : format.text.toLower = format.text := by
  refine String.toList_inj.1 ?_
  show (format.text.map Char.toLower).toList = format.text.toList
  rw [String.toList_map]
  cases format <;> decide

/-- Every format reads back from its name. -/
theorem ofText_text (format : LogFormat) : ofText format.text = .ok format := by
  rw [ofText, toLower_text, ofName?_text]

end LogFormat

end StakeLedger
