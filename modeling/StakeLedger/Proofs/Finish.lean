/-
**How a stream ends.**

A stream is frames of messages one after the other, and then what is left: nothing, the start of a
frame, or a frame that is no message.  Finishing tells which of the three it is, whatever was pulled
before; it ends because every message takes a byte at least.

Main definitions:

* `StakeLedger.Unpacker.Parses` — messages at the front of a stream, and what is behind them;
* `StakeLedger.Unpacker.StartsBad` — bytes whose first frame is no message;
* `StakeLedger.Unpacker.Ending` — **the three ends of a stream, and what is told of each**.

Main results:

* `StakeLedger.Message.ofFrame_of_ofValue` — what is wrong with a message is told apart from what is
  wrong with the stream;
* `StakeLedger.Unpacker.finish_of_frames` — what is finished after some messages;
* `StakeLedger.Unpacker.exists_ending`, `StakeLedger.Unpacker.Ending.eq_finish` — every stream has
  one end, and finishing tells it;
* `StakeLedger.Unpacker.exists_last_pull` — there are no more messages than bytes;
* `StakeLedger.Unpacker.finish_of_schedule` — finishing after any schedule agrees with a parse of
  all that was fed.
-/
import StakeLedger.Proofs.Chunking

set_option autoImplicit false

namespace StakeLedger

open Results
open MsgPack (Value)

/-! ### Errors of a frame -/

/-- The error tells of a frame alone, and not of the stream that the frame stands in. -/
def ProtocolError.OfFrame : ProtocolError → Prop
  | .desynchronized | .truncated _ => False
  | .unknownKind _ | .malformed _ | .tooLarge _ _ | .codec _ => True

theorem ProtocolError.OfFrame.ne_truncated {error : ProtocolError} (h : error.OfFrame) (k : Nat) :
    error ≠ .truncated k := by
  rintro rfl
  exact h

namespace Envelope

variable {error : ProtocolError}

theorem ofFrame_of_readNumber {malformation : Malformation} {value : Value}
    (h : readNumber malformation value = .error error) : error.OfFrame := by
  unfold readNumber at h
  split at h
  · split at h
    · cases h
    · cases h
      trivial
  · cases h
    trivial

theorem ofFrame_of_readKind {tag : Nat} (h : readKind tag = .error error) : error.OfFrame := by
  unfold readKind at h
  split at h
  · cases h
  · cases h
    trivial

theorem ofFrame_of_readPayload {kind : MessageKind} {items : List Value}
    (h : readPayload kind items = .error error) : error.OfFrame := by
  unfold readPayload at h
  split at h
  · cases h
  · cases h
  · cases h
    trivial

theorem ofFrame_of_ofItems {tag id : Value} {rest : List Value}
    (h : ofItems tag id rest = .error error) : error.OfFrame := by
  obtain htag | ⟨_, -, h⟩ := bind_eq_error.1 h
  · exact ofFrame_of_readNumber htag
  obtain hkind | ⟨_, -, h⟩ := bind_eq_error.1 h
  · exact ofFrame_of_readKind hkind
  obtain hid | ⟨_, -, h⟩ := bind_eq_error.1 h
  · exact ofFrame_of_readNumber hid
  obtain hpayload | ⟨_, -, h⟩ := bind_eq_error.1 h
  · exact ofFrame_of_readPayload hpayload
  · cases h

theorem ofFrame_of_ofValue {value : Value} (h : ofValue value = .error error) :
    error.OfFrame := by
  unfold ofValue at h
  split at h
  · exact ofFrame_of_ofItems h
  · exact ofFrame_of_ofItems h
  · cases h
    trivial
  · cases h
    trivial

theorem ofFrame_explain (envelope : Envelope) (fault : PayloadFault) :
    (envelope.explain fault).OfFrame := by
  cases fault <;> trivial

end Envelope

/-- **What is wrong with a message is told apart from what is wrong with the stream.** -/
theorem Message.ofFrame_of_ofValue {value : Value} {error : ProtocolError}
    (h : Message.ofValue value = .error error) : error.OfFrame := by
  obtain henvelope | ⟨envelope, -, h⟩ := bind_eq_error.1 h
  · exact Envelope.ofFrame_of_ofValue henvelope
  obtain hbody | ⟨_, -, h⟩ := bind_eq_error.1 h
  · obtain ⟨fault, -, rfl⟩ := mapError_eq_error.1 hbody
    exact envelope.ofFrame_explain fault
  · cases h

namespace Unpacker

variable {limit n : Nat} {bytes tail frame : Bytes} {frames : List Bytes} {message : Message}
  {messages front : List Message} {error : ProtocolError} {unpacker : Unpacker}
  {outcome : Except ProtocolError (List Message)}

/-! ### The ends of a stream -/

/-- The bytes are frames of the messages, one after the other, and then the tail. -/
def Parses (limit : Nat) (bytes : Bytes) (messages : List Message) (tail : Bytes) : Prop :=
  ∃ frames, List.Forall₂ (IsFrame limit) frames messages ∧ bytes = frames.flatten ++ tail

/-- The first frame of the bytes is refused by the scan, or it is complete and no message. -/
def StartsBad (limit : Nat) (bytes : Bytes) (error : ProtocolError) : Prop :=
  (∃ fault, MsgPack.frameLength limit bytes = .error fault ∧ .ofFrameFault fault = error) ∨
    ∃ n, MsgPack.frameLength limit bytes = .ok (some n) ∧
      messageOfFrame (bytes.take n) = .error error

/-- **How a stream can end, and what is told of its end.** -/
inductive Ending (limit : Nat) (bytes : Bytes) : Except ProtocolError (List Message) → Prop
  /-- The stream is frames of messages and nothing else. -/
  | complete {messages : List Message} (parses : Parses limit bytes messages []) :
      Ending limit bytes (.ok messages)
  /-- The stream ends inside a frame. -/
  | cut {messages : List Message} {tail : Bytes} (parses : Parses limit bytes messages tail)
      (left : 1 ≤ tail.length) (incomplete : MsgPack.frameLength limit tail = .ok none) :
      Ending limit bytes (.error (.truncated tail.length))
  /-- Some frame of the stream is no message. -/
  | bad {messages : List Message} {tail : Bytes} {error : ProtocolError}
      (parses : Parses limit bytes messages tail) (bad : StartsBad limit tail error) :
      Ending limit bytes (.error error)

theorem StartsBad.ofFrame (h : StartsBad limit bytes error) : error.OfFrame := by
  obtain ⟨fault, -, rfl⟩ | ⟨n, -, hmessage⟩ := h
  · cases fault <;> trivial
  · unfold messageOfFrame at hmessage
    split at hmessage
    · cases hmessage
      trivial
    · exact Message.ofFrame_of_ofValue hmessage

theorem Parses.nil (limit : Nat) (bytes : Bytes) : Parses limit bytes [] bytes := ⟨[], .nil, rfl⟩

/-- What some frames are in front of parses with their messages in front. -/
theorem Parses.prepend (hframes : List.Forall₂ (IsFrame limit) frames front)
    (h : Parses limit bytes messages tail) :
    Parses limit (frames.flatten ++ bytes) (front ++ messages) tail := by
  obtain ⟨more, hmore, rfl⟩ := h
  refine ⟨frames ++ more, List.rel_append hframes hmore, ?_⟩
  rw [List.flatten_append, List.append_assoc]

/-- Frames in front of a stream do not change how it ends. -/
theorem Ending.prepend (hframes : List.Forall₂ (IsFrame limit) frames front)
    (h : Ending limit bytes outcome) :
    Ending limit (frames.flatten ++ bytes) (outcome.map (front ++ ·)) := by
  cases h with
  | complete parses => exact .complete (parses.prepend hframes)
  | cut parses left incomplete => exact .cut (parses.prepend hframes) left incomplete
  | bad parses bad => exact .bad (parses.prepend hframes) bad

/-- **Every stream has an end.** -/
theorem exists_ending (limit : Nat) (bytes : Bytes) : ∃ outcome, Ending limit bytes outcome := by
  fun_induction unpacked limit bytes with
  | case1 bytes error hfront =>
      exact ⟨_, .bad (.nil limit bytes) (frontMessage_eq_error_iff.1 hfront)⟩
  | case2 bytes hfront =>
      rcases Nat.eq_zero_or_pos bytes.length with hempty | hleft
      · cases List.length_eq_zero_iff.1 hempty
        exact ⟨_, .complete (.nil limit [])⟩
      · exact ⟨_, .cut (.nil limit bytes) hleft (frontMessage_eq_none_iff.1 hfront)⟩
  | case3 bytes message n hfront _ ih =>
      obtain ⟨outcome, hending⟩ := ih
      have hframes : List.Forall₂ (IsFrame limit) [bytes.take n] [message] :=
        .cons (isFrame_take hfront) .nil
      have hwhole := hending.prepend hframes
      rw [List.flatten_singleton, List.take_append_drop] at hwhole
      exact ⟨_, hwhole⟩

/-! ### Finishing -/

theorem finish_of_error {after : Unpacker} (h : unpacker.next = (.error error, after)) :
    unpacker.finish = .error error := by
  rw [finish, pullAll_of_error h]
  rfl

theorem finish_of_none {after : Unpacker} (h : unpacker.next = (.ok none, after)) :
    unpacker.finish =
      if after.buffered = 0 then .ok [] else .error (.truncated after.buffered) := by
  rw [finish, pullAll_of_none h]
  rfl

theorem finish_of_some {after : Unpacker} (h : unpacker.next = (.ok (some message), after)) :
    unpacker.finish = after.finish.map ([message] ++ ·) := by
  rw [finish, pullAll_of_some h, finish]
  simp only [List.mapM_cons, id_eq, ok_bind]
  cases after.pullAll.1.mapM id with
  | error error => rfl
  | ok messages =>
      simp only [ok_bind, pure_eq_ok]
      split <;> rfl

/-- **Frames of messages that are buffered are finished first.** -/
theorem finish_of_frames (sane : unpacker.poisoned = false)
    (hframes : List.Forall₂ (IsFrame unpacker.limit) frames messages)
    (hbuffer : unpacker.buffer = frames.flatten ++ tail) :
    ∃ after : Unpacker, after.poisoned = false ∧ after.limit = unpacker.limit ∧
      after.buffer = tail ∧ unpacker.finish = after.finish.map (messages ++ ·) := by
  induction frames generalizing unpacker messages with
  | nil =>
      cases hframes
      refine ⟨unpacker, sane, rfl, hbuffer, ?_⟩
      cases unpacker.finish <;> rfl
  | cons frame frames ih =>
      cases hframes with
      | @cons _ message _ messages hframe hrest =>
          rw [List.flatten_cons, List.append_assoc] at hbuffer
          have hfront := frontMessage_append_of_some hframe (frames.flatten ++ tail)
          rw [← hbuffer] at hfront
          have hadvance : (unpacker.advance frame.length).buffer = frames.flatten ++ tail := by
            rw [buffer_advance, hbuffer, List.drop_left]
          obtain ⟨after, hsane, hlimit, htail, hfinish⟩ :=
            @ih _ (unpacker.advance frame.length) sane hrest hadvance
          refine ⟨after, hsane, hlimit, htail, ?_⟩
          rw [finish_of_some (next_of_some sane hfront), hfinish]
          cases after.finish <;> rfl

/-- **Finishing tells the end of what is buffered.** -/
theorem Ending.eq_finish (sane : unpacker.poisoned = false)
    (h : Ending unpacker.limit unpacker.buffer outcome) : unpacker.finish = outcome := by
  cases h with
  | complete parses =>
      obtain ⟨frames, hframes, hbuffer⟩ := parses
      obtain ⟨after, hsane, -, hempty, hfinish⟩ := finish_of_frames sane hframes hbuffer
      have hnone : frontMessage after.limit after.buffer = .ok none := by
        rw [hempty]
        rfl
      have hzero : after.buffered = 0 := by
        rw [← length_buffer, hempty]
        rfl
      rw [hfinish, finish_of_none (next_of_none hsane hnone), if_pos hzero]
      exact congrArg Except.ok (List.append_nil _)
  | @cut _ tail parses left incomplete =>
      obtain ⟨frames, hframes, hbuffer⟩ := parses
      obtain ⟨after, hsane, hlimit, htail, hfinish⟩ := finish_of_frames sane hframes hbuffer
      have hnone : frontMessage after.limit after.buffer = .ok none := by
        rw [hlimit, htail]
        exact frontMessage_eq_none_iff.2 incomplete
      have hbuffered : after.buffered = tail.length := by rw [← length_buffer, htail]
      rw [hfinish, finish_of_none (next_of_none hsane hnone), hbuffered,
        if_neg (Nat.ne_of_gt left)]
      rfl
  | bad parses bad =>
      obtain ⟨frames, hframes, hbuffer⟩ := parses
      obtain ⟨after, hsane, hlimit, htail, hfinish⟩ := finish_of_frames sane hframes hbuffer
      have herror := frontMessage_eq_error_iff.2 bad
      rw [← hlimit, ← htail] at herror
      rw [hfinish, finish_of_error (next_of_error hsane herror)]
      rfl

theorem ending_finish (sane : unpacker.poisoned = false) :
    Ending unpacker.limit unpacker.buffer unpacker.finish := by
  obtain ⟨outcome, hending⟩ := exists_ending unpacker.limit unpacker.buffer
  rwa [hending.eq_finish sane]

/-- A stream has one end only. -/
theorem Ending.unique {other : Except ProtocolError (List Message)}
    (h : Ending limit bytes outcome) (hother : Ending limit bytes other) : outcome = other := by
  have hsane : ((fresh limit).feed bytes).poisoned = false := poisoned_feed _ _
  have hlimit : ((fresh limit).feed bytes).limit = limit := limit_feed _ _
  have hbuffer : ((fresh limit).feed bytes).buffer = bytes := buffer_feed _ _
  rw [← hlimit, ← hbuffer] at h hother
  exact (h.eq_finish hsane).symm.trans (hother.eq_finish hsane)

/-- Nothing is finished once the position in the stream is lost. -/
theorem finish_of_poisoned (h : unpacker.poisoned = true) :
    unpacker.finish = .error .desynchronized :=
  finish_of_error (next_of_poisoned h)

/-! ### How often finishing pulls -/

/-- **There are no more messages to pull than bytes, and the pull after them gives none.** -/
theorem exists_last_pull (unpacker : Unpacker) :
    ∃ messages : List Message, messages.length ≤ unpacker.buffered ∧
      (unpacker.run (List.replicate messages.length .pull)).1 = messages.map (.ok ∘ some) ∧
      ∀ message, (unpacker.run (List.replicate messages.length .pull)).2.next.1 ≠
        .ok (some message) := by
  fun_induction pullAll unpacker with
  | case1 unpacker error after hnext =>
      refine ⟨[], Nat.zero_le _, rfl, fun message h => ?_⟩
      change unpacker.next.1 = _ at h
      rw [hnext] at h
      cases h
  | case2 unpacker after hnext =>
      refine ⟨[], Nat.zero_le _, rfl, fun message h => ?_⟩
      change unpacker.next.1 = _ at h
      rw [hnext] at h
      cases h
  | case3 unpacker message after hnext hless results last hrest ih =>
      obtain ⟨messages, hlength, hpulled, hlast⟩ := ih
      refine ⟨message :: messages, Nat.lt_of_le_of_lt hlength hless, ?_, ?_⟩
      · rw [List.length_cons, List.replicate_succ, run, hnext]
        exact congrArg (Except.ok (some message) :: ·) hpulled
      · rw [List.length_cons, List.replicate_succ, run, hnext]
        exact hlast

/-! ### Finishing after a schedule -/

/-- A pull that does not fail keeps the position in the stream known. -/
theorem sane_next (sane : unpacker.poisoned = false) {found : Option Message}
    (h : unpacker.next.1 = .ok found) : unpacker.next.2.poisoned = false := by
  cases found with
  | none =>
      obtain ⟨-, hfront⟩ := frontMessage_of_next_none h
      rw [next_of_none sane hfront, sane]
  | some message =>
      obtain ⟨-, n, -, hafter⟩ := frontMessage_of_next_some h
      rw [hafter]
      exact sane

/-- As long as no pull fails, the position in the stream is known. -/
theorem sane_run {events : List Event} (sane : unpacker.poisoned = false)
    (accepted : ∀ result ∈ (unpacker.run events).1, ∃ found, result = .ok found) :
    (unpacker.run events).2.poisoned = false := by
  induction events generalizing unpacker with
  | nil => exact sane
  | cons event rest ih =>
      cases event with
      | feed bytes => exact ih (by rw [poisoned_feed, sane]) accepted
      | pull =>
          obtain ⟨⟨found, hfound⟩, hrest⟩ := List.forall_mem_cons.1 accepted
          exact @ih unpacker.next.2 (sane_next sane hfound) hrest

/-- What was fed ends as finishing tells, with the messages that were yielded in front. -/
theorem ending_fed {events : List Event} (sane : ((fresh limit).run events).2.poisoned = false) :
    Ending limit (fed events)
      (((fresh limit).run events).2.finish.map (yielded ((fresh limit).run events).1 ++ ·)) := by
  have start : (fresh limit).CursorInside := Nat.le_refl 0
  obtain ⟨-, frames, hframes, hbytes⟩ := exists_frames events start
  rw [buffer_fresh, List.nil_append] at hbytes
  have hend := ending_finish sane
  rw [limit_run] at hend
  rw [hbytes]
  exact hend.prepend hframes

/-- The end of a stream is the one that is told. -/
theorem Ending.iff_eq {told : Except ProtocolError (List Message)}
    (h : Ending limit bytes told) : Ending limit bytes outcome ↔ told = outcome :=
  ⟨h.unique, fun heq => heq ▸ h⟩

theorem ending_ok_iff :
    Ending limit bytes (.ok messages) ↔ Parses limit bytes messages [] := by
  constructor
  · rintro ⟨parses⟩
    exact parses
  · exact .complete

theorem ending_truncated_iff :
    Ending limit bytes (.error (.truncated n)) ↔
      ∃ messages tail, Parses limit bytes messages tail ∧ tail.length = n ∧ 1 ≤ n ∧
        MsgPack.frameLength limit tail = .ok none := by
  constructor
  · intro h
    cases h with
    | cut parses left incomplete => exact ⟨_, _, parses, rfl, left, incomplete⟩
    | bad parses bad => exact absurd rfl (bad.ofFrame.ne_truncated n)
  · rintro ⟨messages, tail, parses, rfl, left, incomplete⟩
    exact .cut parses left incomplete

theorem ending_error_iff (h : ∀ k, error ≠ .truncated k) :
    Ending limit bytes (.error error) ↔
      ∃ messages tail, Parses limit bytes messages tail ∧ StartsBad limit tail error := by
  constructor
  · intro hend
    cases hend with
    | cut parses left incomplete => exact absurd rfl (h _)
    | bad parses bad => exact ⟨_, _, parses, bad⟩
  · rintro ⟨messages, tail, parses, bad⟩
    exact .bad parses bad

/-- **Finishing agrees with a parse of all that was fed, whatever was pulled before.**  As long as no
pull failed: the messages that were pulled and those that finishing gives are the parse of the
stream if and only if it is frames of messages; what is cut off is told if and only if the stream
ends inside a frame behind them; and else the error of the first bad frame is told.  Finishing pulls
no more messages than there are bytes, and none once the position is lost. -/
theorem finish_of_schedule (limit : Nat) (events : List Event)
    (accepted : ∀ result ∈ ((fresh limit).run events).1, ∃ found, result = .ok found) :
    let unpacker := ((fresh limit).run events).2
    let pulled := yielded ((fresh limit).run events).1
    (∀ messages, (∃ rest, unpacker.finish = .ok rest ∧ pulled ++ rest = messages) ↔
        Parses limit (fed events) messages []) ∧
      (∀ k, unpacker.finish = .error (.truncated k) ↔
        ∃ messages tail, Parses limit (fed events) messages tail ∧ tail.length = k ∧ 1 ≤ k ∧
          MsgPack.frameLength limit tail = .ok none) ∧
      (∀ error, (∀ k, error ≠ .truncated k) → (unpacker.finish = .error error ↔
        ∃ messages tail, Parses limit (fed events) messages tail ∧
          StartsBad limit tail error)) ∧
      (∃ messages : List Message, messages.length ≤ unpacker.buffered ∧
        (unpacker.run (List.replicate messages.length .pull)).1 = messages.map (.ok ∘ some) ∧
        ∀ message, (unpacker.run (List.replicate messages.length .pull)).2.next.1 ≠
          .ok (some message)) ∧
      ∀ lost : Unpacker, lost.poisoned = true → lost.finish = .error .desynchronized := by
  intro unpacker pulled
  have hend : Ending limit (fed events) (unpacker.finish.map (pulled ++ ·)) :=
    ending_fed (sane_run rfl accepted)
  refine ⟨fun messages => ?_, fun k => ?_, fun error herror => ?_, exists_last_pull unpacker,
    fun _ => finish_of_poisoned⟩
  · rw [← ending_ok_iff, hend.iff_eq, map_eq_ok]
  · rw [← ending_truncated_iff, hend.iff_eq, map_eq_error]
  · rw [← ending_error_iff herror, hend.iff_eq, map_eq_error]

/-- A message of three bytes, and two bytes of the next. -/
def cutOff : List Event :=
  [.feed [0x92, 0x05], .pull, .feed [0x04, 0x92, 0x05], .pull]

theorem cutOff_finish :
    (∀ result ∈ ((fresh 3).run cutOff).1, ∃ found, result = .ok found) ∧
      ((fresh 3).run cutOff).2.finish = .error (.truncated 2) := by
  have hresults : ((fresh 3).run cutOff).1 =
      [.ok none, .ok (some { id := 4, body := .commitClaim })] := by decide +kernel
  have accepted : ∀ result ∈ ((fresh 3).run cutOff).1, ∃ found, result = .ok found := by
    rw [hresults]
    exact List.forall_mem_cons.2 ⟨⟨_, rfl⟩, List.forall_mem_cons.2 ⟨⟨_, rfl⟩, nofun⟩⟩
  obtain ⟨-, htruncated, -⟩ := finish_of_schedule 3 cutOff accepted
  have hfront : frontMessage 3 [0x92, 0x05, 0x04] =
      .ok (some ({ id := 4, body := .commitClaim }, 3)) := by decide +kernel
  have hincomplete : MsgPack.frameLength 3 [0x92, 0x05] = .ok none := by cbv
  exact ⟨accepted, (htruncated 2).2 ⟨[{ id := 4, body := .commitClaim }], [0x92, 0x05],
    ⟨[[0x92, 0x05, 0x04]], .cons hfront .nil, rfl⟩, rfl, by decide, hincomplete⟩⟩

end Unpacker

end StakeLedger
