/-
**How bytes arrive does not matter.**

A schedule feeds bytes and pulls messages in any order.  The unpacker behind it is a queue of bytes:
feeding appends to the queue, and a pull that gives a message takes one frame off its front.  What a
schedule gets to hear before the first error is therefore what a single feed of all bytes gives, and
after an error nothing else is ever heard.

Main definitions:

* `StakeLedger.Unpacker.Event`, `StakeLedger.Unpacker.run` — schedules and their results;
* `StakeLedger.Unpacker.received`, `StakeLedger.Unpacker.untilError` — what is read off the results;
* `StakeLedger.Unpacker.unpacked` — the results of a queue of bytes;
* `StakeLedger.Unpacker.IsFrame` — the frames of a message.

Main results:

* `StakeLedger.Unpacker.run_schedule` — every schedule agrees with a single feed up to the first
  error, hears nothing but the loss of the position after it, and accounts for every byte at any
  time.
-/
import Mathlib.Data.List.Forall2
import StakeLedger.Proofs.Frames
import StakeLedger.Stream.Unpacker

set_option autoImplicit false

namespace StakeLedger.Unpacker

/-! ### Schedules -/

/-- What happens to an unpacker. -/
inductive Event
  | feed (bytes : Bytes)
  | pull
  deriving DecidableEq, Repr

/-- All bytes that a schedule feeds. -/
def fed : List Event → Bytes
  | [] => []
  | .feed bytes :: rest => bytes ++ fed rest
  | .pull :: rest => fed rest

/-- The results of the pulls of a schedule, and the unpacker that it leaves behind. -/
def run (unpacker : Unpacker) :
    List Event → List (Except ProtocolError (Option Message)) × Unpacker
  | [] => ([], unpacker)
  | .feed bytes :: rest => (unpacker.feed bytes).run rest
  | .pull :: rest =>
      let (result, after) := unpacker.next
      let (results, last) := after.run rest
      (result :: results, last)

/-- The results without those that wait for more bytes. -/
def received (results : List (Except ProtocolError (Option Message))) :
    List (Except ProtocolError Message) :=
  results.filterMap fun result =>
    match result with
    | .error error => some (.error error)
    | .ok none => none
    | .ok (some message) => some (.ok message)

/-- The messages among the results. -/
def yielded (results : List (Except ProtocolError (Option Message))) : List Message :=
  results.filterMap fun result =>
    match result with
    | .ok (some message) => some message
    | _ => none

/-- The results up to the first error, which is included. -/
def untilError : List (Except ProtocolError Message) → List (Except ProtocolError Message)
  | [] => []
  | .error error :: _ => [.error error]
  | .ok message :: rest => .ok message :: untilError rest

/-- The bytes are one frame, and the message is what they decode to. -/
def IsFrame (limit : Nat) (frame : Bytes) (message : Message) : Prop :=
  frontMessage limit frame = .ok (some (message, frame.length))

/-! ### The front of a buffer -/

variable {limit n : Nat} {front rest buffer : Bytes} {message : Message} {error : ProtocolError}

theorem frameLength_nil (limit : Nat) : MsgPack.frameLength limit [] = .ok none := by
  rw [MsgPack.frameLength, MsgPack.scanFrom.eq_def]
  rfl

theorem frontMessage_eq_some_iff :
    frontMessage limit buffer = .ok (some (message, n)) ↔
      MsgPack.frameLength limit buffer = .ok (some n) ∧
        messageOfFrame (buffer.take n) = .ok message := by
  unfold frontMessage
  split
  · next hempty =>
      subst hempty
      simp [frameLength_nil]
  · split
    · next hframe => simp [hframe]
    · next hframe => simp [hframe]
    · next k hframe =>
        constructor
        · intro h
          split at h
          · cases h
          · next found hfound =>
              cases h
              exact ⟨hframe, hfound⟩
        · rintro ⟨hlength, hmessage⟩
          cases hframe.symm.trans hlength
          rw [hmessage]

theorem frontMessage_eq_error_iff :
    frontMessage limit buffer = .error error ↔
      (∃ fault, MsgPack.frameLength limit buffer = .error fault ∧ .ofFrameFault fault = error) ∨
        ∃ n, MsgPack.frameLength limit buffer = .ok (some n) ∧
          messageOfFrame (buffer.take n) = .error error := by
  unfold frontMessage
  split
  · next hempty =>
      subst hempty
      simp [frameLength_nil]
  · split
    · next hframe => simp [hframe]
    · next hframe => simp [hframe]
    · next k hframe =>
        constructor
        · intro h
          split at h
          · next hfault =>
              cases h
              exact Or.inr ⟨k, hframe, hfault⟩
          · cases h
        · rintro (⟨fault, hfault, -⟩ | ⟨n, hlength, hmessage⟩)
          · cases hframe.symm.trans hfault
          · cases hframe.symm.trans hlength
            rw [hmessage]

theorem frontMessage_of_front (h : frontMessage limit (front ++ rest) = .ok (some (message, n)))
    (inside : n ≤ front.length) (other : Bytes) :
    frontMessage limit (front ++ other) = .ok (some (message, n)) := by
  obtain ⟨hlength, hmessage⟩ := frontMessage_eq_some_iff.1 h
  refine frontMessage_eq_some_iff.2 ⟨MsgPack.frameLength_of_front hlength inside other, ?_⟩
  rwa [List.take_append_of_le_length inside] at hmessage ⊢

theorem frontMessage_append_of_some (h : frontMessage limit buffer = .ok (some (message, n)))
    (more : Bytes) : frontMessage limit (buffer ++ more) = .ok (some (message, n)) := by
  have hle := (frontMessage_bounds h).2
  rw [← List.append_nil buffer] at h
  exact frontMessage_of_front h hle more

/-- Neither a fault of the scan nor a frame without a message is taken back by later bytes. -/
theorem frontMessage_append_of_error (h : frontMessage limit buffer = .error error)
    (more : Bytes) : frontMessage limit (buffer ++ more) = .error error := by
  refine frontMessage_eq_error_iff.2 ?_
  obtain ⟨fault, hfault, herror⟩ | ⟨n, hlength, hmessage⟩ := frontMessage_eq_error_iff.1 h
  · exact Or.inl ⟨fault, MsgPack.frameLength_append_of_error hfault more, herror⟩
  · have hle := MsgPack.frameLength_le_length hlength
    have hlonger := MsgPack.frameLength_append_of_some hlength more
    exact Or.inr ⟨n, hlonger, by rwa [List.take_append_of_le_length hle]⟩

theorem frontMessage_eq_none_iff :
    frontMessage limit buffer = .ok none ↔ MsgPack.frameLength limit buffer = .ok none := by
  unfold frontMessage
  split
  · next hempty =>
      subst hempty
      simp [frameLength_nil]
  · split
    · next hframe => simp [hframe]
    · next hframe => simp [hframe]
    · next k hframe =>
        rw [hframe]
        split <;> simp

/-- A message that has only partly arrived is waited for. -/
theorem frontMessage_of_partial
    (h : frontMessage limit (front ++ rest) = .ok (some (message, n)))
    (incomplete : front.length < n) : frontMessage limit front = .ok none :=
  frontMessage_eq_none_iff.2
    (MsgPack.frameLength_of_partial (frontMessage_eq_some_iff.1 h).1 incomplete)

/-- The frame of a message decodes alone as it does at the front of a buffer. -/
theorem isFrame_take (h : frontMessage limit buffer = .ok (some (message, n))) :
    IsFrame limit (buffer.take n) message := by
  obtain ⟨-, hle⟩ := frontMessage_bounds h
  have hlength : (buffer.take n).length = n := List.length_take_of_le hle
  rw [← List.take_append_drop n buffer] at h
  have hframe := frontMessage_of_front h (Nat.le_of_eq hlength.symm) []
  rw [List.append_nil] at hframe
  rw [IsFrame, hframe, hlength]

/-! ### The unpacker as a queue of bytes -/

theorem buffer_fresh (limit : Nat) : (fresh limit).buffer = [] := rfl

@[simp] theorem limit_feed (unpacker : Unpacker) (bytes : Bytes) :
    (unpacker.feed bytes).limit = unpacker.limit := by
  unfold feed compact
  split <;> rfl

@[simp] theorem poisoned_feed (unpacker : Unpacker) (bytes : Bytes) :
    (unpacker.feed bytes).poisoned = unpacker.poisoned := by
  unfold feed compact
  split <;> rfl

/-- Feeding appends to the queue, whether or not decoded bytes are dropped. -/
@[simp] theorem buffer_feed (unpacker : Unpacker) (bytes : Bytes) :
    (unpacker.feed bytes).buffer = unpacker.buffer ++ bytes := by
  unfold feed compact buffer
  split
  · rfl
  · next hzero =>
      have : unpacker.cursor = 0 := by omega
      rw [this]
      rfl

/-- The unpacker after a message whose frame has `n` bytes. -/
def advance (unpacker : Unpacker) (n : Nat) : Unpacker :=
  { unpacker with cursor := unpacker.cursor + n }

@[simp] theorem buffer_advance (unpacker : Unpacker) (n : Nat) :
    (unpacker.advance n).buffer = unpacker.buffer.drop n :=
  List.drop_drop.symm

variable {unpacker : Unpacker}

theorem next_of_poisoned (h : unpacker.poisoned = true) :
    unpacker.next = (.error .desynchronized, unpacker) := by
  rw [next, if_pos h]

theorem next_of_error (sane : unpacker.poisoned = false)
    (h : frontMessage unpacker.limit unpacker.buffer = .error error) :
    unpacker.next = (.error error, { unpacker with poisoned := true }) := by
  rw [next, if_neg (by simp [sane]), h]

theorem next_of_none (sane : unpacker.poisoned = false)
    (h : frontMessage unpacker.limit unpacker.buffer = .ok none) :
    unpacker.next = (.ok none, unpacker) := by
  rw [next, if_neg (by simp [sane]), h]

theorem next_of_some (sane : unpacker.poisoned = false)
    (h : frontMessage unpacker.limit unpacker.buffer = .ok (some (message, n))) :
    unpacker.next = (.ok (some message), unpacker.advance n) := by
  rw [next, if_neg (by simp [sane]), h]
  rfl

/-- A pull that waits has nothing complete in front of it, and the position is known. -/
theorem frontMessage_of_next_none (h : unpacker.next.1 = .ok none) :
    unpacker.poisoned = false ∧ frontMessage unpacker.limit unpacker.buffer = .ok none := by
  cases hpoison : unpacker.poisoned with
  | true =>
      rw [next_of_poisoned hpoison] at h
      cases h
  | false =>
      refine ⟨rfl, ?_⟩
      cases hfront : frontMessage unpacker.limit unpacker.buffer with
      | error error =>
          rw [next_of_error hpoison hfront] at h
          cases h
      | ok found =>
          cases found with
          | none => rfl
          | some pair =>
              rw [next_of_some hpoison hfront] at h
              cases h

/-- A pull that gives a message has found its frame in front of it. -/
theorem frontMessage_of_next_some (h : unpacker.next.1 = .ok (some message)) :
    unpacker.poisoned = false ∧
      ∃ n, frontMessage unpacker.limit unpacker.buffer = .ok (some (message, n)) ∧
        unpacker.next.2 = unpacker.advance n := by
  cases hpoison : unpacker.poisoned with
  | true =>
      rw [next_of_poisoned hpoison] at h
      cases h
  | false =>
      refine ⟨rfl, ?_⟩
      cases hfront : frontMessage unpacker.limit unpacker.buffer with
      | error error =>
          rw [next_of_error hpoison hfront] at h
          cases h
      | ok found =>
          cases found with
          | none =>
              rw [next_of_none hpoison hfront] at h
              cases h
          | some pair =>
              rw [next_of_some hpoison hfront] at h ⊢
              cases h
              exact ⟨_, rfl, rfl⟩

/-- A pull that fails leaves a poisoned unpacker behind. -/
theorem poisoned_of_next_error (h : unpacker.next.1 = .error error) :
    unpacker.next.2.poisoned = true := by
  cases hpoison : unpacker.poisoned with
  | true => rw [next_of_poisoned hpoison, hpoison]
  | false =>
      cases hfront : frontMessage unpacker.limit unpacker.buffer with
      | error error => rw [next_of_error hpoison hfront]
      | ok found =>
          cases found with
          | none =>
              rw [next_of_none hpoison hfront] at h
              cases h
          | some pair =>
              rw [next_of_some hpoison hfront] at h
              cases h

/-! ### The results of a queue -/

/-- The results of pulling from a queue of bytes until nothing more comes or an error does. -/
def unpacked (limit : Nat) (buffer : Bytes) : List (Except ProtocolError Message) :=
  match h : frontMessage limit buffer with
  | .error error => [.error error]
  | .ok none => []
  | .ok (some (message, n)) =>
      have := frontMessage_bounds h
      .ok message :: unpacked limit (buffer.drop n)
termination_by buffer.length
decreasing_by
  rw [List.length_drop]
  omega

theorem unpacked_of_error (h : frontMessage limit buffer = .error error) :
    unpacked limit buffer = [.error error] := by
  rw [unpacked]
  split <;> simp_all

theorem unpacked_of_some (h : frontMessage limit buffer = .ok (some (message, n))) :
    unpacked limit buffer = .ok message :: unpacked limit (buffer.drop n) := by
  rw [unpacked]
  split <;> simp_all

/-- Only the last result of a queue can be an error. -/
theorem untilError_unpacked (limit : Nat) (buffer : Bytes) :
    untilError (unpacked limit buffer) = unpacked limit buffer := by
  fun_induction unpacked limit buffer with
  | case1 => rfl
  | case2 => rfl
  | case3 buffer message n _ _ ih => rw [untilError, ih]

section PullAll

variable {after : Unpacker}

theorem pullAll_of_error (h : unpacker.next = (.error error, after)) :
    unpacker.pullAll = ([.error error], after) := by
  rw [pullAll]
  split
  · next hnext =>
      cases h.symm.trans hnext
      rfl
  · next hnext => cases h.symm.trans hnext
  · next hnext => cases h.symm.trans hnext

theorem pullAll_of_none (h : unpacker.next = (.ok none, after)) :
    unpacker.pullAll = ([], after) := by
  rw [pullAll]
  split
  · next hnext => cases h.symm.trans hnext
  · next hnext =>
      cases h.symm.trans hnext
      rfl
  · next hnext => cases h.symm.trans hnext

theorem pullAll_of_some (h : unpacker.next = (.ok (some message), after)) :
    unpacker.pullAll = (.ok message :: after.pullAll.1, after.pullAll.2) := by
  rw [pullAll]
  split
  · next hnext => cases h.symm.trans hnext
  · next hnext => cases h.symm.trans hnext
  · next hnext =>
      cases h.symm.trans hnext
      rfl

end PullAll

/-- Pulling until nothing more comes gives the results of the queue. -/
theorem fst_pullAll (sane : unpacker.poisoned = false) :
    unpacker.pullAll.1 = unpacked unpacker.limit unpacker.buffer := by
  generalize hbuffer : unpacker.buffer = buffer
  generalize hlimit : unpacker.limit = limit
  fun_induction unpacked limit buffer generalizing unpacker with
  | case1 buffer error hfront =>
      subst hbuffer hlimit
      rw [pullAll_of_error (next_of_error sane hfront)]
  | case2 buffer hfront =>
      subst hbuffer hlimit
      rw [pullAll_of_none (next_of_none sane hfront)]
  | case3 buffer message n hfront _ ih =>
      subst hbuffer hlimit
      rw [pullAll_of_some (next_of_some sane hfront)]
      exact congrArg _ (@ih (unpacker.advance n) sane (buffer_advance unpacker n) rfl)

/-! ### Schedules against a single feed -/

variable {events earlier later : List Event}

@[simp] theorem limit_next (unpacker : Unpacker) : unpacker.next.2.limit = unpacker.limit := by
  unfold next
  split
  · rfl
  · split <;> rfl

@[simp] theorem limit_run (unpacker : Unpacker) (events : List Event) :
    (unpacker.run events).2.limit = unpacker.limit := by
  induction events generalizing unpacker with
  | nil => rfl
  | cons event rest ih =>
      cases event with
      | feed bytes => exact (ih (unpacker.feed bytes)).trans (limit_feed unpacker bytes)
      | pull => exact (ih unpacker.next.2).trans (limit_next unpacker)

/-- After an error every pull of a schedule hears of the loss of the position. -/
theorem run_of_poisoned (h : unpacker.poisoned = true) (events : List Event) :
    ∀ result ∈ (unpacker.run events).1, result = .error .desynchronized := by
  induction events generalizing unpacker with
  | nil => exact fun _ hmem => absurd hmem List.not_mem_nil
  | cons event rest ih =>
      cases event with
      | feed bytes => exact ih (by rw [poisoned_feed, h])
      | pull =>
          rw [run, next_of_poisoned h]
          exact List.forall_mem_cons.2 ⟨rfl, ih h⟩

/-- Up to the first error a schedule hears what the queue gives once all its bytes are in it. -/
theorem untilError_run (sane : unpacker.poisoned = false) (events : List Event) :
    untilError (received (unpacker.run events).1 ++ (unpacker.run events).2.pullAll.1) =
      unpacked unpacker.limit (unpacker.buffer ++ fed events) := by
  -- what was pulled before shows in the queue only, so the induction is over all unpackers
  induction events generalizing unpacker with
  | nil =>
      rw [run, fst_pullAll sane, fed, List.append_nil]
      exact untilError_unpacked _ _
  | cons event rest ih =>
      cases event with
      | feed bytes =>
          have hrest := @ih (unpacker.feed bytes) (by rw [poisoned_feed, sane])
          rwa [buffer_feed, limit_feed, List.append_assoc] at hrest
      | pull =>
          rw [fed]
          cases hfront : frontMessage unpacker.limit unpacker.buffer with
          | error error =>
              rw [unpacked_of_error (frontMessage_append_of_error hfront _), run,
                next_of_error sane hfront]
              rfl
          | ok found =>
              cases found with
              | none =>
                  rw [run, next_of_none sane hfront]
                  exact ih sane
              | some pair =>
                  obtain ⟨message, n⟩ := pair
                  obtain ⟨-, hle⟩ := frontMessage_bounds hfront
                  have hlonger := frontMessage_append_of_some hfront (fed rest)
                  have hrest := @ih (unpacker.advance n) sane
                  rw [buffer_advance] at hrest
                  rw [unpacked_of_some hlonger, List.drop_append_of_le_length hle, run,
                    next_of_some sane hfront]
                  exact congrArg (Except.ok message :: ·) hrest

/-! ### Every byte is accounted for -/

/-- The cursor does not pass the end of the kept bytes. -/
def CursorInside (unpacker : Unpacker) : Prop := unpacker.cursor ≤ unpacker.kept.length

theorem CursorInside.feed (h : unpacker.CursorInside) (bytes : Bytes) :
    (unpacker.feed bytes).CursorInside := by
  unfold CursorInside Unpacker.feed compact
  split
  · exact Nat.zero_le _
  · rw [List.length_append]
    exact Nat.le_add_right_of_le h

theorem CursorInside.advance (h : unpacker.CursorInside) (inside : n ≤ unpacker.buffer.length) :
    (unpacker.advance n).CursorInside := by
  have hkept : unpacker.cursor ≤ unpacker.kept.length := h
  rw [length_buffer, buffered] at inside
  change unpacker.cursor + n ≤ unpacker.kept.length
  omega

/-- The frames of the messages that a schedule yields are cut off the front of the queue, in
order. -/
theorem exists_frames (events : List Event) (inside : unpacker.CursorInside) :
    (unpacker.run events).2.CursorInside ∧
      ∃ frames : List Bytes,
        List.Forall₂ (IsFrame unpacker.limit) frames (yielded (unpacker.run events).1) ∧
          unpacker.buffer ++ fed events = frames.flatten ++ (unpacker.run events).2.buffer := by
  induction events generalizing unpacker with
  | nil => exact ⟨inside, [], .nil, by rw [fed, List.append_nil]; rfl⟩
  | cons event rest ih =>
      cases event with
      | feed bytes =>
          have hrest := ih (inside.feed bytes)
          rwa [buffer_feed, limit_feed, List.append_assoc] at hrest
      | pull =>
          rw [fed, run]
          cases hpoison : unpacker.poisoned with
          | true =>
              -- a poisoned unpacker keeps its queue
              rw [next_of_poisoned hpoison]
              exact ih inside
          | false =>
              cases hfront : frontMessage unpacker.limit unpacker.buffer with
              | error error =>
                  rw [next_of_error hpoison hfront]
                  exact @ih { unpacker with poisoned := true } inside
              | ok found =>
                  cases found with
                  | none =>
                      rw [next_of_none hpoison hfront]
                      exact ih inside
                  | some pair =>
                      obtain ⟨message, n⟩ := pair
                      have hle := (frontMessage_bounds hfront).2
                      obtain ⟨hlast, frames, hframes, hbytes⟩ := ih (inside.advance hle)
                      rw [buffer_advance] at hbytes
                      rw [next_of_some hpoison hfront]
                      refine ⟨hlast, unpacker.buffer.take n :: frames,
                        .cons (isFrame_take hfront) hframes, ?_⟩
                      rw [List.flatten_cons, List.append_assoc, ← hbytes, ← List.append_assoc,
                        List.take_append_drop]

/-- **Every schedule hears, up to the first error, what a single feed of all its bytes gives; after
an error it hears of nothing but the loss of the position; and at any time the bytes not decoded yet
are those that were fed without the frames of the messages that were yielded.** -/
theorem run_schedule (limit : Nat) (events : List Event) :
    untilError (received ((fresh limit).run events).1 ++ ((fresh limit).run events).2.pullAll.1) =
        ((fresh limit).feed (fed events)).pullAll.1 ∧
      (∀ earlier later error, events = earlier ++ .pull :: later →
        ((fresh limit).run earlier).2.next.1 = .error error →
        ∀ result ∈ (((fresh limit).run earlier).2.next.2.run later).1,
          result = .error .desynchronized) ∧
      ∀ earlier later, events = earlier ++ later →
        ((fresh limit).run earlier).2.CursorInside ∧
          ∃ frames : List Bytes,
            List.Forall₂ (IsFrame limit) frames (yielded ((fresh limit).run earlier).1) ∧
              fed earlier = frames.flatten ++ ((fresh limit).run earlier).2.buffer ∧
              frames.flatten.length + ((fresh limit).run earlier).2.buffered =
                (fed earlier).length := by
  refine ⟨?_, ?_, ?_⟩
  · rw [untilError_run rfl, fst_pullAll (poisoned_feed _ _), limit_feed, buffer_feed]
  · intro earlier later error _ herror
    exact run_of_poisoned (poisoned_of_next_error herror) later
  · intro earlier later _
    have start : (fresh limit).CursorInside := Nat.le_refl 0
    obtain ⟨inside, frames, hframes, hbytes⟩ := exists_frames earlier start
    rw [buffer_fresh, List.nil_append] at hbytes
    refine ⟨inside, frames, hframes, hbytes, ?_⟩
    have hlength := congrArg List.length hbytes
    rw [List.length_append, length_buffer] at hlength
    omega

end StakeLedger.Unpacker
