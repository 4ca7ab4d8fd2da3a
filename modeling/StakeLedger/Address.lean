/-
**Account addresses.**

An address is the kind of account it belongs to and a body of twenty bytes.  It is written either
as text — `hx` or `cx` and the forty digits of the body — or as twenty-one bytes, the kind first.
Both forms name an address uniquely, up to the case of the digits in a text that is read.

Main definitions:

* `StakeLedger.Address` — addresses, ordered by kind and then by body;
* `StakeLedger.Address.toBytes`, `StakeLedger.Address.ofBytes` — the byte form;
* `StakeLedger.Address.text`, `StakeLedger.Address.ofText` — the text form;
* `StakeLedger.Address.Fault` — why bytes or a text name no address.

Main results:

* `StakeLedger.Address.ofBytes_toBytes`, `StakeLedger.Address.ofText_text` — both forms read back.
-/
import StakeLedger.Hex

set_option autoImplicit false

namespace StakeLedger

namespace Address

/-- Who controls an account: a person through a key, or the code of a contract. -/
inductive Kind
  | user
  | contract
  deriving DecidableEq, Repr

namespace Kind

/-- The byte that stands for a kind. -/
def toByte : Kind → UInt8
  | .user => 0
  | .contract => 1

/-- The kind that a byte stands for. -/
def ofByte? (b : UInt8) : Option Kind :=
  if b = 0 then some .user else if b = 1 then some .contract else none

/-- The two letters that stand for a kind. -/
def text : Kind → String
  | .user => "hx"
  | .contract => "cx"

@[simp] theorem ofByte?_toByte (kind : Kind) : ofByte? kind.toByte = some kind := by
  cases kind <;> rfl

theorem ofByte?_eq_some_iff {b : UInt8} {kind : Kind} :
    ofByte? b = some kind ↔ b = kind.toByte := by
  unfold ofByte?
  cases kind <;> split <;> simp_all [toByte]

end Kind

/-- How many bytes the body of an address has. -/
def bodySize : Nat := 20

/-- How many bytes an address takes, its kind included. -/
def size : Nat := bodySize + 1

/-- Why bytes or a text name no address. -/
inductive Fault
  /-- The byte form has `actual` bytes. -/
  | wrongSize (actual : Nat)
  /-- The first byte stands for no kind. -/
  | unknownKind (b : UInt8)
  /-- The text does not start with the letters of a kind, or its body has the wrong size. -/
  | malformedText (text : String)
  /-- What follows the letters of the kind is no hexadecimal text. -/
  | malformedDigits (error : Hex.Error)
  deriving DecidableEq, Repr

/-- The wording of a fault. -/
def Fault.message : Fault → String
  | .wrongSize actual => s!"expected {size} bytes, got {actual}"
  | .unknownKind b => s!"unknown prefix byte 0x{Hex.encode [b]}"
  | .malformedText text => text
  | .malformedDigits error => error.message

end Address

/-- An account address. -/
structure Address where
  /-- Who controls the account. -/
  kind : Address.Kind
  /-- The bytes that tell the accounts of one kind apart. -/
  body : Bytes
  size_body : body.length = Address.bodySize
  deriving DecidableEq, Repr

namespace Address

@[ext] theorem ext {a b : Address} (kind : a.kind = b.kind) (body : a.body = b.body) : a = b := by
  cases a
  cases b
  simp_all

/-! ### The byte form -/

/-- The kind and the body, as carried in store keys and messages. -/
def toBytes (a : Address) : Bytes :=
  a.kind.toByte :: a.body

/-- The address that bytes name. -/
def ofBytes (bytes : Bytes) : Except Fault Address :=
  match bytes with
  | [] => .error (.wrongSize 0)
  | b :: body =>
      if size_body : body.length = bodySize then
        match Kind.ofByte? b with
        | some kind => .ok { kind, body, size_body }
        | none => .error (.unknownKind b)
      else .error (.wrongSize (body.length + 1))

@[simp] theorem length_toBytes (a : Address) : a.toBytes.length = size := by
  simp [toBytes, a.size_body, size]

/-- The byte form reads back. -/
@[simp] theorem ofBytes_toBytes (a : Address) : ofBytes a.toBytes = .ok a := by
  simp [ofBytes, toBytes, a.size_body]

/-- Different addresses have different byte forms. -/
theorem toBytes_inj {a b : Address} : a.toBytes = b.toBytes ↔ a = b := by
  constructor
  · intro h
    have := ofBytes_toBytes a
    rw [h, ofBytes_toBytes b] at this
    simpa using this.symm
  · rintro rfl
    rfl

/-- Addresses are ordered by kind and then by body, byte by byte. -/
instance : Ord Address := ⟨fun a b => compare a.toBytes b.toBytes⟩

/-! ### The text form -/

/-- The letters of the kind and the digits of the body. -/
def text (a : Address) : String :=
  a.kind.text ++ Hex.encode a.body

/-- The text form with the name of the type, for diagnostics. -/
def labelled (a : Address) : String :=
  s!"Address({a.text})"

instance : ToString Address := ⟨text⟩

/-- The address that `kind` and the digits after its letters in `text` name. -/
def ofDigits (text : String) (kind : Kind) (digits : List Char) : Except Fault Address :=
  match Hex.decode digits with
  | .error error => .error (.malformedDigits error)
  | .ok body =>
      if size_body : body.length = bodySize then .ok { kind, body, size_body }
      else .error (.malformedText text)

/-- The address that a text names. -/
def ofText (text : String) : Except Fault Address :=
  match text.toList with
  | 'h' :: 'x' :: digits => ofDigits text .user digits
  | 'c' :: 'x' :: digits => ofDigits text .contract digits
  | _ => .error (.malformedText text)

/-- The text form reads back. -/
theorem ofText_text (a : Address) : ofText a.text = .ok a := by
  rcases a with ⟨kind, body, size_body⟩
  cases kind <;>
    simp [ofText, text, Kind.text, ofDigits, Hex.decode_digits, size_body]

end Address

end StakeLedger
