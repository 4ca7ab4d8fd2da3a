/-
**A byte channel that delivers in chunks.**

Bytes that are sent come out in their order, in chunks of a fixed greatest size and regardless of
how they were sent.

Main definitions:

* `StakeLedger.Channel` — the bytes under way and a record of all that was sent;
* `StakeLedger.Channel.send`, `StakeLedger.Channel.receive` — its two ends.
-/
import StakeLedger.Bytes

set_option autoImplicit false

namespace StakeLedger

/-- A channel of bytes. -/
structure Channel where
  /-- The greatest size of a chunk. -/
  chunkSize : Nat
  /-- The bytes under way. -/
  pending : Bytes
  /-- All that was sent, in order. -/
  sent : List Bytes
  deriving DecidableEq, Repr

namespace Channel

/-- The size of a chunk unless another is set. -/
def defaultChunkSize : Nat := 4096

/-- A channel to which nothing was sent; a chunk has a byte at least. -/
def fresh (chunkSize : Nat) : Channel :=
  { chunkSize := max chunkSize 1, pending := [], sent := [] }

/-- Sends bytes. -/
def send (channel : Channel) (bytes : Bytes) : Channel :=
  { channel with pending := channel.pending ++ bytes, sent := channel.sent ++ [bytes] }

/-- Receives the next chunk, or `none` once nothing is under way. -/
def receive (channel : Channel) : Option Bytes × Channel :=
  if channel.pending = [] then (none, channel)
  else
    (some (channel.pending.take channel.chunkSize),
      { channel with pending := channel.pending.drop channel.chunkSize })

/-- Drops all that was sent. -/
def reset (channel : Channel) : Channel :=
  { channel with pending := [], sent := [] }

end Channel

end StakeLedger
