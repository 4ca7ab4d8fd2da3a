/-
**The scan in machine words.**

The scan is a loop over two counters, the position in the buffer and the number of values
outstanding.  Each turn of the loop takes one first byte and passes what that byte announces.  The
counters, and the sizes and counts that are read from the buffer, are kept in words of 64 bits: here
a turn breaks off at the first sum, product or difference that no such word holds.

Main definitions:

* `StakeLedger.MsgPack.Step`, `StakeLedger.MsgPack.Lead.step?` — what a first byte asks for;
* `StakeLedger.MsgPack.Scanner`, `StakeLedger.MsgPack.Scanner.Stop` — the counters, and why a turn
  does not come to its end;
* `StakeLedger.MsgPack.Scanner.turn` — **one turn of the loop**;
* `StakeLedger.MsgPack.Scanner.scanned` — what the loop has come to after a number of turns.
-/
import StakeLedger.MsgPack.Frame
import StakeLedger.Words

set_option autoImplicit false

namespace StakeLedger.MsgPack

/-! ### What a first byte asks for -/

/-- What is done about a first byte. -/
inductive Step
  /-- Passing `n` bytes. -/
  | skip (n : Nat)
  /-- Reading a size in `width` bytes, and passing as many bytes and `extra` more. -/
  | sized (width extra : Nat)
  /-- Waiting for `n` entries of `perEntry` values each. -/
  | items (n perEntry : Nat)
  /-- Reading a count in `width` bytes, and waiting for as many entries of `perEntry` values. -/
  | counted (width perEntry : Nat)
  deriving DecidableEq, Repr

/-- What a first byte asks for; the reserved one asks for nothing that could be done. -/
def Lead.step? : Lead → Option Step
  | .reserved => none
  | .nil | .bool _ | .small _ => some (.skip 0)
  | .unsigned width | .signed width => some (.skip width)
  | .float32 => some (.skip 4)
  | .float64 => some (.skip 8)
  | .str (.inline n) | .bin (.inline n) => some (.skip n)
  | .str (.field width) | .bin (.field width) => some (.sized width 0)
  | .ext (.inline n) => some (.skip (n + 1))
  | .ext (.field width) => some (.sized width 1)
  | .array (.inline n) => some (.items n 1)
  | .array (.field width) => some (.counted width 1)
  | .map (.inline n) => some (.items n 2)
  | .map (.field width) => some (.counted width 2)

/-! ### The counters -/

/-- Where a scan stands: how many bytes are behind it, and how many values are outstanding. -/
structure Scanner where
  pos : Nat
  pending : Nat
  deriving DecidableEq, Repr

/-- Why a turn of the scan does not come to its end. -/
inductive Scanner.Stop
  | fault (fault : FrameFault)
  /-- The buffer ends first. -/
  | waits
  /-- A result is no number of 64 bits. -/
  | overflow
  deriving DecidableEq, Repr

/-- Steps of a scan, which move its counters and may stop. -/
abbrev ScanM := ExceptT Scanner.Stop (StateM Scanner)

namespace Scanner

open Words

/-- A result, if there is one in 64 bits. -/
def checked : Option Nat → ScanM Nat
  | some n => pure n
  | none => throw .overflow

/-- Refuses a value that is known to reach up to `stop`, if that is beyond the limit. -/
def check (limit stop : Nat) : ScanM Unit :=
  if limit < stop then throw (.fault (.tooLarge stop limit)) else pure ()

/-- Moves past `n` bytes, unless the limit or the buffer ends before them. -/
def advance (limit : Nat) (buffer : Bytes) (n : Nat) : ScanM Unit := do
  let s ← get
  let stop ← checked (within? size64 (s.pos + n))
  check limit stop
  if buffer.length < stop then throw .waits else set { s with pos := stop }

/-- The number in the next `width` bytes. -/
def readNumber (limit : Nat) (buffer : Bytes) (width : Nat) : ScanM Nat := do
  let s ← get
  advance limit buffer width
  return Bytes.toNat ((buffer.drop s.pos).take width)

/-- Adds `n` entries of `perEntry` values each to those outstanding. -/
def expect (n perEntry : Nat) : ScanM Unit := do
  let values ← checked (within? size64 (n * perEntry))
  let s ← get
  let pending ← checked (within? size64 (s.pending + values))
  set { s with pending := pending }

/-- Does what a first byte asks for. -/
def take (limit : Nat) (buffer : Bytes) : Step → ScanM Unit
  | .skip n => advance limit buffer n
  | .sized width extra => do
      let n ← readNumber limit buffer width
      let n ← checked (within? size64 (n + extra))
      advance limit buffer n
  | .items n perEntry => expect n perEntry
  | .counted width perEntry => do
      let n ← readNumber limit buffer width
      expect n perEntry

/-- Passes what a first byte announces, which stands right behind the position. -/
def pass (limit : Nat) (buffer : Bytes) (lead : Lead) : ScanM Unit :=
  match lead.step? with
  | some step => take limit buffer step
  | none => do
      let offset ← checked (sub? (← get).pos 1)
      throw (.fault (.reservedLead offset))

/-- Takes the first byte of the next value off the buffer. -/
def takeLead (buffer : Bytes) : ScanM Lead := do
  let s ← get
  match buffer[s.pos]? with
  | none => throw .waits
  | some b => do
      let pos ← checked (within? size64 (s.pos + 1))
      let pending ← checked (sub? s.pending 1)
      set ({ pos, pending } : Scanner)
      return Lead.ofByte b

/-- Every value outstanding needs one byte at least. -/
def checkPending (limit : Nat) : ScanM Unit := do
  let s ← get
  check limit (← checked (within? size64 (s.pos + s.pending)))

/-- One turn of the loop, which passes one value or the head of a container. -/
def turn (limit : Nat) (buffer : Bytes) : ScanM Unit := do
  let lead ← takeLead buffer
  pass limit buffer lead
  checkPending limit

/-! ### The loop -/

/-- What the loop has come to. -/
inductive Progress
  | running (s : Scanner)
  | ended (result : Except FrameFault (Option Nat))
  /-- A turn came to a result that is no number of 64 bits. -/
  | broken

/-- One turn more, unless the loop has ended; it ends when no value is outstanding. -/
def Progress.next (limit : Nat) (buffer : Bytes) : Progress → Progress
  | .running s =>
      match turn limit buffer s with
      | (.ok (), after) =>
          if after.pending = 0 then .ended (.ok (some after.pos)) else .running after
      | (.error (.fault fault), _) => .ended (.error fault)
      | (.error .waits, _) => .ended (.ok none)
      | (.error .overflow, _) => .broken
  | progress => progress

/-- What the loop has come to after a number of turns; it starts in front of the buffer with one
value outstanding. -/
def scanned (limit : Nat) (buffer : Bytes) : Nat → Progress
  | 0 => .running { pos := 0, pending := 1 }
  | turns + 1 => (scanned limit buffer turns).next limit buffer

end Scanner

end StakeLedger.MsgPack
