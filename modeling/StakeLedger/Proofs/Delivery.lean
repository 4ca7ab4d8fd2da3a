/-
**Messages arrive exactly once and in order.**

A sender writes messages into a channel, a receiver takes chunks out of the channel and feeds them
to an unpacker, and messages are pulled from the unpacker.  The three proceed independently, and
chunks know nothing of where a message ends.  At any time the bytes that the unpacker has not
decoded yet, followed by those that are still in the channel, are the written forms of the messages
that were sent and not yet delivered; from this everything else follows.

Main definitions:

* `StakeLedger.Delivery`, `StakeLedger.Delivery.Step`, `StakeLedger.Delivery.run` — the three
  parties, and what they do in any order;
* `StakeLedger.Delivery.delivered` — the messages that were pulled;
* `StakeLedger.Delivery.Kept` — **what every step keeps**.

Main results:

* `StakeLedger.Unpacker.next_of_written` — what a pull finds in front of written messages;
* `StakeLedger.Delivery.Kept.run` — the invariant holds after every sequence of steps;
* `StakeLedger.Delivery.exactly_once` — no pull fails, what was delivered is a prefix of what was
  sent, and in the end it is all of it.
-/
import StakeLedger.Proofs.Finish
import StakeLedger.Proofs.Messages
import StakeLedger.Proofs.Written
import StakeLedger.Stream.Channel

set_option autoImplicit false

namespace StakeLedger

/-! ### Written messages -/

/-- A message that the wire can carry and that an unpacker with the limit accepts. -/
structure Message.Sendable (limit : Nat) (message : Message) : Prop extends message.InRange where
  length_le : message.encode.length ≤ limit

/-- The bytes of messages, one after the other. -/
def Message.written (messages : List Message) : Bytes := messages.flatMap Message.encode

namespace Unpacker

open Message (written Sendable)

variable {limit : Nat} {message : Message} {messages : List Message} {unpacker : Unpacker}
  {pending : Bytes}

theorem messageOfFrame_encode (h : message.InRange) :
    messageOfFrame message.encode = .ok message := by
  rw [messageOfFrame, h.decodeValue_encode]
  exact h.ofValue_toValue

/-- A written message is found at the front of a buffer, whatever follows it. -/
theorem frontMessage_encode (h : message.Sendable limit) (more : Bytes) :
    frontMessage limit (message.encode ++ more) =
      .ok (some (message, message.encode.length)) := by
  refine frontMessage_eq_some_iff.2 ⟨h.fits.frameLength_encode h.length_le more, ?_⟩
  rw [List.take_left]
  exact messageOfFrame_encode h.toInRange

/-- **A pull in front of written messages, some bytes of which are still under way, takes the first
message off them or waits for more; it only waits for bytes that are under way.** -/
theorem next_of_written (sane : unpacker.poisoned = false)
    (sendable : ∀ message ∈ messages, message.Sendable unpacker.limit)
    (h : unpacker.buffer ++ pending = written messages) :
    (∃ message later, messages = message :: later ∧
      unpacker.next = (.ok (some message), unpacker.advance message.encode.length) ∧
      (unpacker.advance message.encode.length).buffer ++ pending = written later) ∨
      unpacker.next = (.ok none, unpacker) ∧ (pending = [] → messages = []) := by
  cases messages with
  | nil =>
      obtain ⟨hbuffer, -⟩ := List.append_eq_nil_iff.1 h
      refine Or.inr ⟨next_of_none sane ?_, fun _ => rfl⟩
      rw [hbuffer]
      rfl
  | cons message later =>
      have hmessage := sendable message List.mem_cons_self
      rw [written, List.flatMap_cons] at h
      have found : ∀ back, unpacker.buffer = message.encode ++ back →
          later.flatMap Message.encode = back ++ pending →
          unpacker.next = (.ok (some message), unpacker.advance message.encode.length) ∧
            (unpacker.advance message.encode.length).buffer ++ pending = written later := by
        intro back hbuffer hlater
        have hfront := frontMessage_encode hmessage back
        rw [← hbuffer] at hfront
        refine ⟨next_of_some sane hfront, ?_⟩
        rw [buffer_advance, hbuffer, List.drop_left, written, hlater]
      -- the end of the buffer lies inside the first message or behind it
      rcases List.append_eq_append_iff.1 h with ⟨missing, hencode, hpending⟩ | ⟨back, hback⟩
      · cases missing with
        | nil =>
            rw [List.append_nil] at hencode
            rw [List.nil_append] at hpending
            exact Or.inl ⟨message, later, rfl, found [] (by rw [hencode, List.append_nil])
              hpending.symm⟩
        | cons first missing =>
            have hwhole := frontMessage_encode hmessage []
            rw [List.append_nil] at hwhole
            have hfront : frontMessage unpacker.limit unpacker.buffer = .ok none := by
              rw [hencode] at hwhole
              refine frontMessage_of_partial hwhole ?_
              rw [List.length_append, List.length_cons]
              omega
            refine Or.inr ⟨next_of_none sane hfront, ?_⟩
            rintro rfl
            cases hpending
      · exact Or.inl ⟨message, later, rfl, found back hback.1 hback.2⟩

end Unpacker

/-! ### The three parties -/

/-- Messages on their way from a sender through a channel to an unpacker. -/
structure Delivery where
  /-- The messages that are still to be sent. -/
  unsent : List Message
  /-- The messages that were sent. -/
  sent : List Message
  channel : Channel
  unpacker : Unpacker
  /-- What each pull gave. -/
  results : List (Except ProtocolError (Option Message))

namespace Delivery

open Message (written Sendable)

/-- The messages before the first of them is sent. -/
def start (limit chunkSize : Nat) (messages : List Message) : Delivery where
  unsent := messages
  sent := []
  channel := .fresh chunkSize
  unpacker := .fresh limit
  results := []

/-- The messages that were pulled. -/
def delivered (delivery : Delivery) : List Message := Unpacker.yielded delivery.results

/-- The next message is sent, if there is one left. -/
def send (delivery : Delivery) : Delivery :=
  match delivery.unsent with
  | [] => delivery
  | message :: unsent =>
      { delivery with
        unsent
        sent := delivery.sent ++ [message]
        channel := delivery.channel.send message.encode }

/-- A chunk is received and fed to the unpacker, if something is under way. -/
def receive (delivery : Delivery) : Delivery :=
  match delivery.channel.receive with
  | (none, channel) => { delivery with channel }
  | (some chunk, channel) => { delivery with channel, unpacker := delivery.unpacker.feed chunk }

/-- The unpacker is asked for the next message. -/
def pull (delivery : Delivery) : Delivery :=
  let (result, unpacker) := delivery.unpacker.next
  { delivery with unpacker, results := delivery.results ++ [result] }

/-- What one of the parties does next. -/
inductive Step
  | send
  | receive
  | pull
  deriving DecidableEq, Repr

/-- The messages after a step. -/
def step (delivery : Delivery) : Step → Delivery
  | .send => delivery.send
  | .receive => delivery.receive
  | .pull => delivery.pull

/-- The messages after a sequence of steps. -/
def run (delivery : Delivery) (steps : List Step) : Delivery := steps.foldl step delivery

/-! ### What every step keeps -/

variable {limit chunkSize : Nat} {messages : List Message} {delivery : Delivery}

/-- The state of a delivery in which nothing is lost, altered or out of order. -/
structure Kept (limit : Nat) (messages : List Message) (delivery : Delivery) : Prop where
  sent_unsent : delivery.sent ++ delivery.unsent = messages
  limit_eq : delivery.unpacker.limit = limit
  sane : delivery.unpacker.poisoned = false
  results_ok : ∀ result ∈ delivery.results, ∃ found, result = .ok found
  /-- What was sent and not delivered is in the buffer of the unpacker and in the channel. -/
  under_way : ∃ rest, delivery.sent = delivery.delivered ++ rest ∧
    delivery.unpacker.buffer ++ delivery.channel.pending = written rest

theorem start_kept (limit chunkSize : Nat) (messages : List Message) :
    (start limit chunkSize messages).Kept limit messages where
  sent_unsent := rfl
  limit_eq := rfl
  sane := rfl
  results_ok := nofun
  under_way := ⟨[], rfl, rfl⟩

theorem Kept.send (h : delivery.Kept limit messages) : delivery.send.Kept limit messages := by
  obtain ⟨rest, hsent, hbytes⟩ := h.under_way
  unfold Delivery.send
  split
  · exact h
  · next message unsent hunsent =>
      refine ⟨?_, h.limit_eq, h.sane, h.results_ok, rest ++ [message], ?_, ?_⟩
      · rw [← h.sent_unsent, hunsent, List.append_assoc]
        rfl
      · change delivery.sent ++ [message] = delivery.delivered ++ (rest ++ [message])
        rw [hsent, List.append_assoc]
      · change _ ++ (delivery.channel.pending ++ message.encode) = _
        rw [← List.append_assoc, hbytes, written, written, List.flatMap_append,
          List.flatMap_singleton]

theorem Kept.receive (h : delivery.Kept limit messages) :
    delivery.receive.Kept limit messages := by
  obtain ⟨rest, hsent, hbytes⟩ := h.under_way
  unfold Delivery.receive Channel.receive
  split
  · next channel hreceive =>
      split at hreceive
      · cases hreceive
        exact h
      · cases hreceive
  · next chunk channel hreceive =>
      split at hreceive
      · cases hreceive
      · cases hreceive
        refine ⟨h.sent_unsent, ?_, ?_, h.results_ok, rest, hsent, ?_⟩
        · rw [Unpacker.limit_feed, h.limit_eq]
        · rw [Unpacker.poisoned_feed, h.sane]
        · rw [Unpacker.buffer_feed, List.append_assoc, List.take_append_drop, hbytes]

theorem yielded_append_singleton (results : List (Except ProtocolError (Option Message)))
    (found : Option Message) :
    Unpacker.yielded (results ++ [.ok found]) = Unpacker.yielded results ++ found.toList := by
  rw [Unpacker.yielded, List.filterMap_append]
  cases found <;> rfl

/-- The messages that are not delivered yet are among those that can be sent. -/
theorem Kept.sendable_rest {rest : List Message}
    (sendable : ∀ message ∈ messages, message.Sendable limit) (h : delivery.Kept limit messages)
    (hsent : delivery.sent = delivery.delivered ++ rest) :
    ∀ message ∈ rest, message.Sendable delivery.unpacker.limit := by
  intro message hmessage
  rw [h.limit_eq]
  refine sendable message ?_
  rw [← h.sent_unsent, hsent]
  exact List.mem_append_left _ (List.mem_append_right _ hmessage)

/-- A pull delivers the next message that was sent, or nothing. -/
theorem Kept.pull (sendable : ∀ message ∈ messages, message.Sendable limit)
    (h : delivery.Kept limit messages) : delivery.pull.Kept limit messages := by
  obtain ⟨rest, hsent, hbytes⟩ := h.under_way
  have hresults : ∀ found, ∀ result ∈ delivery.results ++ [.ok found],
      ∃ found, result = Except.ok found := by
    intro found result hresult
    rcases List.mem_append.1 hresult with hold | hnew
    · exact h.results_ok result hold
    · exact ⟨found, List.mem_singleton.1 hnew⟩
  unfold Delivery.pull
  obtain ⟨message, later, rfl, hnext, hlater⟩ | ⟨hnext, -⟩ :=
    Unpacker.next_of_written h.sane (h.sendable_rest sendable hsent) hbytes
  · rw [hnext]
    refine ⟨h.sent_unsent, h.limit_eq, h.sane, hresults (some message), later, ?_, hlater⟩
    rw [delivered, yielded_append_singleton, List.append_assoc]
    exact hsent
  · rw [hnext]
    refine ⟨h.sent_unsent, h.limit_eq, h.sane, hresults none, rest, ?_, hbytes⟩
    rw [delivered, yielded_append_singleton, Option.toList_none, List.append_nil]
    exact hsent

theorem Kept.step (sendable : ∀ message ∈ messages, message.Sendable limit)
    (h : delivery.Kept limit messages) (step : Step) :
    (delivery.step step).Kept limit messages := by
  cases step with
  | send => exact h.send
  | receive => exact h.receive
  | pull => exact h.pull sendable

/-- **Every sequence of steps keeps what a step keeps.** -/
theorem Kept.run (sendable : ∀ message ∈ messages, message.Sendable limit)
    (h : delivery.Kept limit messages) (steps : List Step) :
    (delivery.run steps).Kept limit messages := by
  induction steps generalizing delivery with
  | nil => exact h
  | cons first rest ih => exact ih (h.step sendable first)

/-! ### The end of a delivery -/

/-- Once nothing is under way and a pull finds nothing, everything that was sent is delivered. -/
theorem Kept.delivered_eq (sendable : ∀ message ∈ messages, message.Sendable limit)
    (h : delivery.Kept limit messages) (drained : delivery.channel.pending = [])
    (none_found : delivery.unpacker.next.1 = .ok none) :
    delivery.delivered = delivery.sent ∧ delivery.unpacker.buffered = 0 ∧
      delivery.unpacker.finish = .ok [] := by
  obtain ⟨rest, hsent, hbytes⟩ := h.under_way
  obtain ⟨message, later, -, hnext, -⟩ | ⟨hnext, hrest⟩ :=
    Unpacker.next_of_written h.sane (h.sendable_rest sendable hsent) hbytes
  · rw [hnext] at none_found
    cases none_found
  · obtain rfl := hrest drained
    have hbuffer : delivery.unpacker.buffered = 0 := by
      rw [drained, List.append_nil] at hbytes
      rw [← Unpacker.length_buffer, hbytes]
      rfl
    rw [List.append_nil] at hsent
    exact ⟨hsent.symm, hbuffer, (Unpacker.finish_of_none hnext).trans (if_pos hbuffer)⟩

/-- **Whatever the order of the steps and the size of the chunks: no pull fails, what was delivered
is a prefix of what was sent, and once nothing is under way and a pull finds nothing, what was
delivered is all that was sent and the unpacker holds nothing more.** -/
theorem exactly_once (limit chunkSize : Nat) (messages : List Message)
    (sendable : ∀ message ∈ messages, message.Sendable limit) (steps : List Step) :
    let delivery := (start limit chunkSize messages).run steps
    (∀ result ∈ delivery.results, ∃ found, result = .ok found) ∧
      delivery.delivered <+: delivery.sent ∧
      delivery.sent ++ delivery.unsent = messages ∧
      (delivery.channel.pending = [] → delivery.unpacker.next.1 = .ok none →
        delivery.delivered = delivery.sent ∧ delivery.unpacker.buffered = 0 ∧
          delivery.unpacker.finish = .ok []) := by
  intro delivery
  have kept : delivery.Kept limit messages :=
    (start_kept limit chunkSize messages).run sendable steps
  obtain ⟨rest, hsent, -⟩ := kept.under_way
  exact ⟨kept.results_ok, ⟨rest, hsent.symm⟩, kept.sent_unsent, kept.delivered_eq sendable⟩

/-- A message of six bytes and one of three. -/
def twoMessages : List Message :=
  [{ id := 1, body := .init true 77 }, { id := 2, body := .commitClaim }]

/-- In chunks of four bytes, the second message is sent while the first has only partly arrived. -/
def interleaved : List Step :=
  [.send, .receive, .pull, .send, .receive, .pull, .receive, .pull, .pull]

theorem twoMessages_sendable : ∀ message ∈ twoMessages, message.Sendable 6 := by
  intro message hmessage
  simp only [twoMessages, List.mem_cons, List.not_mem_nil, or_false] at hmessage
  rcases hmessage with rfl | rfl
  · exact ⟨⟨by decide, show 77 ≤ maxHeight by decide⟩, by decide⟩
  · exact ⟨⟨by decide, trivial⟩, by decide⟩

theorem twoMessages_exactly_once :
    let delivery := (start 6 4 twoMessages).run interleaved
    delivery.channel.pending = [] ∧ delivery.unpacker.next.1 = .ok none ∧
      delivery.delivered = twoMessages ∧ delivery.unpacker.finish = .ok [] := by
  intro delivery
  obtain ⟨-, -, hsent, hend⟩ := exactly_once 6 4 twoMessages twoMessages_sendable interleaved
  have hdrained : delivery.channel.pending = [] := by decide +kernel
  have hnone : delivery.unpacker.next.1 = .ok none := by decide +kernel
  have hunsent : delivery.unsent = [] := rfl
  obtain ⟨hdelivered, -, hfinish⟩ := hend hdrained hnone
  change delivery.sent ++ delivery.unsent = twoMessages at hsent
  rw [hunsent, List.append_nil] at hsent
  exact ⟨hdrained, hnone, hdelivered.trans hsent, hfinish⟩

end Delivery

end StakeLedger
