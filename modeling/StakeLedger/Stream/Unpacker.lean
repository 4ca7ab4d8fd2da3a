/-
**Messages from a stream.**

An unpacker turns bytes that arrive in pieces of any size into messages.  It keeps the bytes that
are not decoded yet; a message that has only partly arrived waits for more.  Decoding moves a cursor
over the kept bytes, and what lies behind the cursor is dropped when more bytes arrive.  After an
error nothing tells where the next message starts, so the unpacker is poisoned: every later pull
fails, whatever arrives.

Main definitions:

* `StakeLedger.Unpacker` — the kept bytes and the cursor;
* `StakeLedger.Unpacker.feed`, `StakeLedger.Unpacker.next`, `StakeLedger.Unpacker.pullAll` — adding
  bytes, pulling one message, and pulling all that have arrived;
* `StakeLedger.Unpacker.finish` — what remains at the end of the stream.

Main results:

* `StakeLedger.Unpacker.buffered_next` — a pull that gives a message consumes a byte at least.
-/
import StakeLedger.Message.Codec

set_option autoImplicit false

namespace StakeLedger

/-- What is known of a stream of messages. -/
structure Unpacker where
  /-- The greatest size of a message. -/
  limit : Nat
  /-- The bytes that are kept: some that are decoded already, and all that arrived after them. -/
  kept : Bytes
  /-- How many of the kept bytes are decoded already. -/
  cursor : Nat
  /-- Whether an error has left the position in the stream unknown. -/
  poisoned : Bool
  deriving DecidableEq, Repr

namespace Unpacker

/-- The greatest size of a message unless another is set. -/
def defaultLimit : Nat := 16 * 1024 * 1024

/-- An unpacker at the start of a stream. -/
def fresh (limit : Nat) : Unpacker := { limit, kept := [], cursor := 0, poisoned := false }

/-- The bytes that arrived and are not decoded yet. -/
def buffer (unpacker : Unpacker) : Bytes := unpacker.kept.drop unpacker.cursor

/-- How many bytes are not decoded yet. -/
def buffered (unpacker : Unpacker) : Nat := unpacker.kept.length - unpacker.cursor

@[simp] theorem length_buffer (unpacker : Unpacker) :
    unpacker.buffer.length = unpacker.buffered :=
  List.length_drop

/-- The unpacker without the bytes that are decoded already. -/
def compact (unpacker : Unpacker) : Unpacker :=
  if 0 < unpacker.cursor then
    { unpacker with kept := unpacker.kept.drop unpacker.cursor, cursor := 0 }
  else unpacker

/-- Adds bytes that arrived.  Nothing is decoded yet. -/
def feed (unpacker : Unpacker) (bytes : Bytes) : Unpacker :=
  let compacted := unpacker.compact
  { compacted with kept := compacted.kept ++ bytes }

/-- The message that the bytes of a frame are. -/
def messageOfFrame (frame : Bytes) : Except ProtocolError Message :=
  match decodeValue frame with
  | .error error => .error (.malformed (.undecodable error))
  | .ok value => Message.ofValue value

/-- The message at the front of a buffer with the length of its frame, or `none` while it is
incomplete. -/
def frontMessage (limit : Nat) (buffer : Bytes) : Except ProtocolError (Option (Message × Nat)) :=
  if buffer = [] then .ok none
  else match MsgPack.frameLength limit buffer with
    | .error fault => .error (.ofFrameFault fault)
    | .ok none => .ok none
    | .ok (some n) =>
        match messageOfFrame (buffer.take n) with
        | .error error => .error error
        | .ok message => .ok (some (message, n))

/-- Pulls the next message, or `none` while it is incomplete. -/
def next (unpacker : Unpacker) : Except ProtocolError (Option Message) × Unpacker :=
  if unpacker.poisoned then (.error .desynchronized, unpacker)
  else match frontMessage unpacker.limit unpacker.buffer with
    | .error error => (.error error, { unpacker with poisoned := true })
    | .ok none => (.ok none, unpacker)
    | .ok (some (message, n)) =>
        (.ok (some message), { unpacker with cursor := unpacker.cursor + n })

/-- The frame of a message has at least one byte and lies inside the buffer. -/
theorem frontMessage_bounds {limit n : Nat} {buffer : Bytes} {message : Message}
    (h : frontMessage limit buffer = .ok (some (message, n))) : 0 < n ∧ n ≤ buffer.length := by
  unfold frontMessage at h
  split at h
  · simp at h
  · split at h
    · simp at h
    · simp at h
    · next k hk =>
        split at h
        · simp at h
        · simp only [Except.ok.injEq, Option.some.injEq, Prod.mk.injEq] at h
          rw [← h.2]
          exact ⟨MsgPack.frameLength_pos hk, MsgPack.frameLength_le_length hk⟩

/-- A pull that gives a message consumes a byte at least. -/
theorem buffered_next {unpacker after : Unpacker} {message : Message}
    (h : unpacker.next = (.ok (some message), after)) :
    after.buffered < unpacker.buffered := by
  unfold next at h
  split at h
  · simp at h
  · split at h
    · simp at h
    · simp at h
    · next hfront =>
        simp only [Prod.mk.injEq] at h
        obtain ⟨hpos, hle⟩ := frontMessage_bounds hfront
        rw [length_buffer, buffered] at hle
        rw [← h.2]
        simp only [buffered]
        omega

/-- Pulls until nothing is left or an error comes. -/
def pullAll (unpacker : Unpacker) : List (Except ProtocolError Message) × Unpacker :=
  match h : unpacker.next with
  | (.error error, after) => ([.error error], after)
  | (.ok none, after) => ([], after)
  | (.ok (some message), after) =>
      have := buffered_next h
      let (results, last) := after.pullAll
      (.ok message :: results, last)
termination_by unpacker.buffered

/-- Adds pieces one after the other and pulls all after each. -/
def pullChunks (unpacker : Unpacker) : List Bytes → List (Except ProtocolError Message) × Unpacker
  | [] => ([], unpacker)
  | piece :: pieces =>
      let (results, after) := (unpacker.feed piece).pullAll
      let (more, last) := after.pullChunks pieces
      (results ++ more, last)

/-- What remains at the end of the stream: the complete messages, if nothing is left after them. -/
def finish (unpacker : Unpacker) : Except ProtocolError (List Message) := do
  let (results, last) := unpacker.pullAll
  let messages ← results.mapM id
  if last.buffered = 0 then return messages else throw (.truncated last.buffered)

end Unpacker

end StakeLedger
