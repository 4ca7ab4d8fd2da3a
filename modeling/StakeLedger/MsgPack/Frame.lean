/-
**Where a MessagePack value ends.**

The length of the first value in a buffer is found from first bytes and sizes alone, without
building the value, so that a sender who announces more than the limit is refused before the
announced bytes arrive.  The scan keeps the position and the number of values still outstanding;
each value that it passes adds the items it announces.  A buffer that ends early is incomplete, not
wrong: more bytes may follow.

Main definitions:

* `StakeLedger.MsgPack.Extent` — what has to be passed after a first byte;
* `StakeLedger.MsgPack.Lead.extent` — the extent that a first byte announces;
* `StakeLedger.MsgPack.scanFrom`, `StakeLedger.MsgPack.frameLength` — the scan.

Main results:

* `StakeLedger.MsgPack.frameLength_pos`, `StakeLedger.MsgPack.frameLength_le_length` — a complete
  value has at least one byte and lies inside the buffer.
-/
import StakeLedger.MsgPack.Lead

set_option autoImplicit false

namespace StakeLedger.MsgPack

/-- Why the front of a buffer is not the start of an acceptable value. -/
inductive FrameFault
  /-- The reserved first byte stands at `offset`. -/
  | reservedLead (offset : Nat)
  /-- The value is known to need `size` bytes, more than `limit`. -/
  | tooLarge (size limit : Nat)
  deriving DecidableEq, Repr

/-- What has to be passed after a first byte: `skip` bytes, and then `items` further values. -/
structure Extent where
  skip : Nat
  items : Nat
  deriving DecidableEq, Repr

/-! ### One first byte

The limit is checked as soon as a piece is known to be needed, before it is asked whether the buffer
holds it; `none` stands for a buffer that ends first. -/

/-- Passing `n` bytes of `rest`, which starts at `pos`. -/
def passBytes (limit pos n : Nat) (rest : Bytes) : Except FrameFault (Option Bytes) :=
  if limit < pos + n then .error (.tooLarge (pos + n) limit)
  else .ok ((rest.split? n).map Prod.fst)

/-- The extent of a value of `n` bytes. -/
def fixedExtent (limit pos : Nat) (rest : Bytes) (n : Nat) : Except FrameFault (Option Extent) := do
  let passed ← passBytes limit pos n rest
  return passed.map fun _ => { skip := n, items := 0 }

/-- The extent of data whose size is found as `size` says, with `extra` bytes before it. -/
def sizedExtent (limit pos : Nat) (rest : Bytes) (size : Size) (extra : Nat) :
    Except FrameFault (Option Extent) :=
  match size with
  | .inline n => fixedExtent limit pos rest (n + extra)
  | .field width => do
      match ← passBytes limit pos width rest with
      | none => return none
      | some field =>
          let n := field.toNat + extra
          let passed ← passBytes limit (pos + width) n (rest.drop width)
          return passed.map fun _ => { skip := width + n, items := 0 }

/-- The extent of a container whose size is found as `size` says, with `perEntry` values for each of
its entries. -/
def countedExtent (limit pos : Nat) (rest : Bytes) (size : Size) (perEntry : Nat) :
    Except FrameFault (Option Extent) :=
  match size with
  | .inline n => .ok (some { skip := 0, items := n * perEntry })
  | .field width => do
      let passed ← passBytes limit pos width rest
      return passed.map fun field => { skip := width, items := field.toNat * perEntry }

/-- The extent that a first byte announces; `rest` is what follows the byte and starts at `pos`. -/
def Lead.extent (limit pos : Nat) (rest : Bytes) : Lead → Except FrameFault (Option Extent)
  | .reserved => .error (.reservedLead (pos - 1))
  | .nil => fixedExtent limit pos rest 0
  | .bool _ => fixedExtent limit pos rest 0
  | .small _ => fixedExtent limit pos rest 0
  | .unsigned width => fixedExtent limit pos rest width
  | .signed width => fixedExtent limit pos rest width
  | .float32 => fixedExtent limit pos rest 4
  | .float64 => fixedExtent limit pos rest 8
  | .str size => sizedExtent limit pos rest size 0
  | .bin size => sizedExtent limit pos rest size 0
  | .ext size => sizedExtent limit pos rest size 1
  | .array size => countedExtent limit pos rest size 1
  | .map size => countedExtent limit pos rest size 2

/-! ### The scan -/

/-- The scan from `pos` on, with `pending` values outstanding and `rest` ahead.  Every outstanding
value needs a byte at least, so the limit is also checked against their number. -/
def scanFrom (limit pos pending : Nat) (rest : Bytes) : Except FrameFault (Option Nat) :=
  if pending = 0 then .ok (some pos)
  else match rest with
    | [] => .ok none
    | b :: rest =>
        match (Lead.ofByte b).extent limit (pos + 1) rest with
        | .error fault => .error fault
        | .ok none => .ok none
        | .ok (some extent) =>
            let pos := pos + 1 + extent.skip
            let pending := pending - 1 + extent.items
            if limit < pos + pending then .error (.tooLarge (pos + pending) limit)
            else scanFrom limit pos pending (rest.drop extent.skip)
termination_by rest.length
decreasing_by
  simp only [List.length_drop, List.length_cons]
  omega

/-- The length of the first value in the buffer, or `none` while it is incomplete. -/
def frameLength (limit : Nat) (buffer : Bytes) : Except FrameFault (Option Nat) :=
  scanFrom limit 0 1 buffer

/-! ### A complete value lies inside the buffer -/

/-- An extent that is announced lies inside what is ahead. -/
theorem passBytes_some {limit pos n : Nat} {rest field : Bytes}
    (h : passBytes limit pos n rest = .ok (some field)) : n ≤ rest.length := by
  unfold passBytes at h
  split at h
  · exact absurd h (by simp)
  · simp only [Except.ok.injEq, Option.map_eq_some_iff] at h
    obtain ⟨⟨front, back⟩, hcut, _⟩ := h
    obtain ⟨rfl, rfl⟩ := Bytes.split?_eq_some_iff.mp hcut
    simp

theorem fixedExtent_some {limit pos n : Nat} {rest : Bytes} {extent : Extent}
    (h : fixedExtent limit pos rest n = .ok (some extent)) : extent.skip ≤ rest.length := by
  unfold fixedExtent at h
  cases hpass : passBytes limit pos n rest with
  | error fault => simp [hpass, bind, Except.bind] at h
  | ok passed =>
      cases passed with
      | none => simp [hpass, bind, Except.bind, pure, Except.pure] at h
      | some field =>
          simp only [hpass, bind, Except.bind, pure, Except.pure, Option.map_some, Except.ok.injEq,
            Option.some.injEq] at h
          rw [← h]
          exact passBytes_some hpass

theorem sizedExtent_some {limit pos extra : Nat} {rest : Bytes} {size : Size} {extent : Extent}
    (h : sizedExtent limit pos rest size extra = .ok (some extent)) :
    extent.skip ≤ rest.length := by
  cases size with
  | inline n => exact fixedExtent_some h
  | field width =>
      unfold sizedExtent at h
      cases hhead : passBytes limit pos width rest with
      | error fault => simp [hhead, bind, Except.bind] at h
      | ok head =>
          cases head with
          | none => simp [hhead, bind, Except.bind, pure, Except.pure] at h
          | some field =>
              simp only [hhead, bind, Except.bind] at h
              cases hbody : passBytes limit (pos + width) (field.toNat + extra)
                  (rest.drop width) with
              | error fault => simp [hbody] at h
              | ok body =>
                  cases body with
                  | none => simp [hbody, pure, Except.pure] at h
                  | some data =>
                      simp only [hbody, pure, Except.pure, Option.map_some, Except.ok.injEq,
                        Option.some.injEq] at h
                      have hlen := passBytes_some hbody
                      have hwidth := passBytes_some hhead
                      rw [List.length_drop] at hlen
                      rw [← h]
                      show width + (field.toNat + extra) ≤ rest.length
                      omega

theorem countedExtent_some {limit pos perEntry : Nat} {rest : Bytes} {size : Size}
    {extent : Extent} (h : countedExtent limit pos rest size perEntry = .ok (some extent)) :
    extent.skip ≤ rest.length := by
  cases size with
  | inline n =>
      simp only [countedExtent, Except.ok.injEq, Option.some.injEq] at h
      rw [← h]
      exact Nat.zero_le _
  | field width =>
      unfold countedExtent at h
      cases hpass : passBytes limit pos width rest with
      | error fault => simp [hpass, bind, Except.bind] at h
      | ok passed =>
          cases passed with
          | none => simp [hpass, bind, Except.bind, pure, Except.pure] at h
          | some field =>
              simp only [hpass, bind, Except.bind, pure, Except.pure, Option.map_some,
                Except.ok.injEq, Option.some.injEq] at h
              rw [← h]
              exact passBytes_some hpass

/-- Whatever a first byte announces lies inside what is ahead. -/
theorem Lead.extent_some {limit pos : Nat} {rest : Bytes} {lead : Lead} {extent : Extent}
    (h : lead.extent limit pos rest = .ok (some extent)) : extent.skip ≤ rest.length := by
  cases lead with
  | reserved => exact absurd h (by simp [Lead.extent])
  | nil | bool _ | small _ | unsigned _ | signed _ | float32 | float64 =>
      exact fixedExtent_some h
  | str _ | bin _ | ext _ => exact sizedExtent_some h
  | array _ | map _ => exact countedExtent_some h

/-- The scan ends inside what is ahead, and past the start if a value is outstanding. -/
theorem scanFrom_bounds {limit pos pending n : Nat} {rest : Bytes}
    (h : scanFrom limit pos pending rest = .ok (some n)) :
    pos ≤ n ∧ n ≤ pos + rest.length ∧ (pending ≠ 0 → pos < n) := by
  fun_induction scanFrom limit pos pending rest with
  | case1 pos rest =>
      simp only [Except.ok.injEq, Option.some.injEq] at h
      omega
  | case2 | case3 | case4 => simp at h
  | case5 => simp at h
  | case6 pos pending hpending b rest extent hextent pos' pending' hlimit ih =>
      have hskip := Lead.extent_some hextent
      obtain ⟨hlow, hhigh, -⟩ := ih h
      rw [List.length_drop] at hhigh
      simp only [List.length_cons]
      omega

/-- A complete value has at least one byte. -/
theorem frameLength_pos {limit n : Nat} {buffer : Bytes}
    (h : frameLength limit buffer = .ok (some n)) : 0 < n :=
  (scanFrom_bounds h).2.2 (by decide)

/-- A complete value lies inside the buffer. -/
theorem frameLength_le_length {limit n : Nat} {buffer : Bytes}
    (h : frameLength limit buffer = .ok (some n)) : n ≤ buffer.length := by
  have := (scanFrom_bounds h).2.1
  omega

end StakeLedger.MsgPack
