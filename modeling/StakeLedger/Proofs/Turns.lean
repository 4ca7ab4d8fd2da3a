/-
**The counters of the scan.**

A turn of the scan moves past at least one byte and never past the end of the buffer.  The limit is
checked at the end of each turn against the position and the values outstanding together, and no
first byte can ask for more than about `2 ^ 33` bytes or values; so the counters that a turn starts
from leave room in their words for all that the turn adds up, as long as the limit leaves that room.
No count that is announced can then wrap the number of outstanding values, and the scan in machine
words finds what the scan over numbers of any size finds.

Main definitions:

* `StakeLedger.MsgPack.Step.Small` — what a first byte can ask for;
* `StakeLedger.MsgPack.Scanner.Follows` — **a turn that passes what an extent tells**;
* `StakeLedger.MsgPack.Scanner.Roomy` — counters that leave room in their words;
* `StakeLedger.MsgPack.Scanner.OnCourse` — what the loop has come to, against the scan.

Main results:

* `StakeLedger.MsgPack.Scanner.pass_follows` — passing a first byte moves the counters by its
  extent;
* `StakeLedger.MsgPack.Scanner.turn_settled` — the ways a turn can end;
* `StakeLedger.MsgPack.Scanner.counters_sound` — **the counters stay within their bounds, and the
  loop ends**.
-/
import StakeLedger.MsgPack.Scanner
import StakeLedger.Proofs.Frames
import StakeLedger.Proofs.Ranges
import StakeLedger.Stateful

set_option autoImplicit false

namespace StakeLedger.MsgPack

open Results Stateful Words

/-! ### What a first byte can ask for -/

/-- Sizes and counts take at most four bytes, and are added to or doubled at most. -/
def Step.Small : Step → Prop
  | .skip n => n ≤ 32
  | .sized width extra => width ≤ 4 ∧ extra ≤ 1
  | .items n perEntry => n ≤ 16 ∧ perEntry ≤ 2
  | .counted width perEntry => width ≤ 4 ∧ perEntry ≤ 2

instance : DecidablePred Step.Small
  | .skip _ => inferInstanceAs (Decidable (_ ≤ _))
  | .sized _ _ => inferInstanceAs (Decidable (_ ∧ _))
  | .items _ _ => inferInstanceAs (Decidable (_ ∧ _))
  | .counted _ _ => inferInstanceAs (Decidable (_ ∧ _))

theorem small_of_step? : ∀ b : UInt8, ∀ step ∈ (Lead.ofByte b).step?, step.Small := by
  refine forall_byte ?_
  decide +kernel

theorem step?_eq_none_iff {lead : Lead} : lead.step? = none ↔ lead = .reserved := by
  constructor
  · intro h
    cases lead with
    | reserved => rfl
    | nil | bool _ | small _ | unsigned _ | signed _ | float32 | float64 => cases h
    | str size | bin size | ext size | array size | map size =>
        cases size with
        | inline n => cases h
        | field width => cases h
  · rintro rfl
    rfl

namespace Scanner

variable {limit n width : Nat} {buffer : Bytes} {s : Scanner}

/-! ### Steps in words that are large enough -/

section Steps

variable {α : Type}

theorem get_bind (f : Scanner → ScanM α) (s : Scanner) : (get >>= f) s = f s s := rfl

/-- A result that a word holds is gone on with. -/
theorem checked_bind {result : Option Nat} (h : result = some n) (f : Nat → ScanM α)
    (s : Scanner) : (checked result >>= f) s = f n s := by
  rw [h]
  rfl

end Steps

section Passing

variable {fault : FrameFault} {field : Bytes} (word : s.pos + n < size64)

include word

/-- Moving past bytes is passing them, as long as their end fits a word. -/
theorem advance_eq (limit : Nat) (buffer : Bytes) : advance limit buffer n s =
    if limit < s.pos + n then (.error (.fault (.tooLarge (s.pos + n) limit)), s)
    else if buffer.length < s.pos + n then (.error .waits, s)
    else (.ok (), { s with pos := s.pos + n }) := by
  rw [advance, get_bind, checked_bind (within?_of_lt word), check]
  split
  · rfl
  · split
    · rfl
    · rfl

theorem advance_of_error (h : passBytes limit s.pos n (buffer.drop s.pos) = .error fault) :
    advance limit buffer n s = (.error (.fault fault), s) := by
  obtain ⟨hover, rfl⟩ := passBytes_eq_error_iff.1 h
  rw [advance_eq word, if_pos hover]

theorem advance_of_none (inside : s.pos ≤ buffer.length)
    (h : passBytes limit s.pos n (buffer.drop s.pos) = .ok none) :
    advance limit buffer n s = (.error .waits, s) := by
  obtain ⟨hlimit, hfew⟩ := passBytes_eq_none_iff.1 h
  rw [List.length_drop] at hfew
  rw [advance_eq word, if_neg (Nat.not_lt.2 hlimit), if_pos (by omega)]

theorem advance_of_some (inside : s.pos ≤ buffer.length)
    (h : passBytes limit s.pos n (buffer.drop s.pos) = .ok (some field)) :
    advance limit buffer n s = (.ok (), { s with pos := s.pos + n }) := by
  obtain ⟨hlimit, henough, -⟩ := passBytes_eq_some_iff.1 h
  rw [List.length_drop] at henough
  rw [advance_eq word, if_neg (Nat.not_lt.2 hlimit), if_neg (by omega)]

end Passing

/-- Values are added to those outstanding, as long as their number fits a word. -/
theorem expect_eq {perEntry : Nat} (values : n * perEntry < size64)
    (word : s.pending + n * perEntry < size64) :
    expect n perEntry s = (.ok (), { s with pending := s.pending + n * perEntry }) := by
  rw [expect, checked_bind (within?_of_lt values), get_bind, checked_bind (within?_of_lt word)]
  rfl

/-! ### Passing what a first byte announces -/

/-- Steps from `s` on do what an extent tells: they stop where it is refused or has not arrived, and
where it has they move the counters by it, which is by at most `2 ^ 34`. -/
inductive Follows (buffer : Bytes) (s : Scanner) :
    Except FrameFault (Option Extent) → Except Stop Unit × Scanner → Prop
  | fault {fault : FrameFault} {after : Scanner} (low : s.pos ≤ after.pos)
      (high : after.pos ≤ buffer.length) :
      Follows buffer s (.error fault) (.error (.fault fault), after)
  | waits {after : Scanner} (low : s.pos ≤ after.pos) (high : after.pos ≤ buffer.length) :
      Follows buffer s (.ok none) (.error .waits, after)
  | passed {extent : Extent} (high : s.pos + extent.skip ≤ buffer.length)
      (small : extent.skip + extent.items ≤ 0x400000000) :
      Follows buffer s (.ok (some extent))
        (.ok (), { pos := s.pos + extent.skip, pending := s.pending + extent.items })

/-- Moving past bytes that start `offset` bytes further on. -/
theorem advance_follows (offset : Nat) (word : s.pos + offset + n < size64)
    (inside : s.pos + offset ≤ buffer.length) (few : offset + n ≤ 0x400000000) :
    Follows buffer s
      (do
        let passed ← passBytes limit (s.pos + offset) n (buffer.drop (s.pos + offset))
        return passed.map fun _ => { skip := offset + n, items := 0 })
      (advance limit buffer n { s with pos := s.pos + offset }) := by
  generalize hmoved : ({ s with pos := s.pos + offset } : Scanner) = moved
  have hpos : s.pos + offset = moved.pos := by rw [← hmoved]
  have hlow : s.pos ≤ moved.pos := by omega
  rw [hpos] at word inside ⊢
  cases hpass : passBytes limit moved.pos n (buffer.drop moved.pos) with
  | error fault =>
      rw [advance_of_error word hpass]
      exact .fault hlow inside
  | ok passed =>
      cases passed with
      | none =>
          rw [advance_of_none word inside hpass]
          exact .waits hlow inside
      | some field =>
          obtain ⟨-, henough, -⟩ := passBytes_eq_some_iff.1 hpass
          rw [List.length_drop] at henough
          rw [advance_of_some word inside hpass, ← hmoved, Nat.add_assoc]
          have hend : s.pos + (offset + n) ≤ buffer.length := by omega
          have hsmall : offset + n + 0 ≤ 0x400000000 := few
          exact .passed hend hsmall

/-- What the steps do after a number is read is told by the number; before, by its bytes. -/
theorem readNumber_bind {f : Nat → ScanM Unit} {told : Bytes → Except FrameFault (Option Extent)}
    (word : s.pos + width < size64) (inside : s.pos ≤ buffer.length)
    (follows : ∀ field : Bytes, field.length = width → s.pos + width ≤ buffer.length →
      Follows buffer s (told field) (f field.toNat { s with pos := s.pos + width })) :
    Follows buffer s
      (do match ← passBytes limit s.pos width (buffer.drop s.pos) with
          | none => return none
          | some field => told field)
      ((readNumber limit buffer width >>= f) s) := by
  cases hpass : passBytes limit s.pos width (buffer.drop s.pos) with
  | error fault =>
      have hread : readNumber limit buffer width s = (.error (.fault fault), s) := by
        rw [readNumber, get_bind, bind_of_error (advance_of_error word hpass)]
      rw [bind_of_error hread]
      exact .fault (Nat.le_refl _) inside
  | ok passed =>
      cases passed with
      | none =>
          have hread : readNumber limit buffer width s = (.error .waits, s) := by
            rw [readNumber, get_bind, bind_of_error (advance_of_none word inside hpass)]
          rw [bind_of_error hread]
          exact .waits (Nat.le_refl _) inside
      | some field =>
          obtain ⟨-, henough, rfl⟩ := passBytes_eq_some_iff.1 hpass
          have hread : readNumber limit buffer width s =
              (.ok (Bytes.toNat ((buffer.drop s.pos).take width)),
                { s with pos := s.pos + width }) := by
            rw [readNumber, get_bind, bind_of_ok (advance_of_some word inside hpass)]
            rfl
          rw [bind_of_ok hread]
          refine follows _ (List.length_take_of_le henough) ?_
          rw [List.length_drop] at henough
          omega

/-- Counters inside the buffer that leave room in their words: the limit is at most `2 ^ 63`, and
allows for the values outstanding but for one. -/
structure Roomy (limit : Nat) (buffer : Bytes) (s : Scanner) : Prop where
  small : limit ≤ 0x8000000000000000
  inside : s.pos ≤ buffer.length
  room : s.pos + s.pending ≤ limit + 1

theorem Roomy.fits (h : s.Roomy limit buffer) (hn : n ≤ 0x400000000) :
    s.pos + n < size64 ∧ s.pending + n < size64 := by
  have hsmall := h.small
  have hroom := h.room
  have hsize : size64 = 0x10000000000000000 := rfl
  omega

/-- A number of four bytes is below `2 ^ 32`. -/
theorem toNat_lt_of_narrow {field : Bytes} (h : field.length ≤ 4) : field.toNat < 0x100000000 :=
  toNat_lt_of_length_le h

/-- Passing a fixed number of bytes. -/
theorem skip_follows (h : s.Roomy limit buffer) (few : n ≤ 0x400000000) :
    Follows buffer s (fixedExtent limit s.pos (buffer.drop s.pos) n)
      (take limit buffer (.skip n) s) := by
  have hfollows : Follows buffer s _ (advance limit buffer n { s with pos := s.pos + 0 }) :=
    advance_follows 0 (h.fits few).1 h.inside (by omega)
  rwa [Nat.zero_add] at hfollows

/-- Passing bytes whose number is read first. -/
theorem sized_follows (h : s.Roomy limit buffer) {extra : Nat} (narrow : width ≤ 4)
    (few : extra ≤ 1) :
    Follows buffer s (sizedExtent limit s.pos (buffer.drop s.pos) (.field width) extra)
      (take limit buffer (.sized width extra) s) := by
  refine readNumber_bind (h.fits (by omega)).1 h.inside ?_
  intro field hwidth inside
  have hsize : field.toNat < 0x100000000 := toNat_lt_of_narrow (by omega)
  have hword : field.toNat + extra < size64 :=
    Nat.lt_trans (m := 0x200000000) (by omega) (by decide)
  rw [checked_bind (within?_of_lt hword), List.drop_drop]
  refine advance_follows width ?_ inside (by omega)
  rw [Nat.add_assoc]
  exact (h.fits (by omega)).1

/-- Waiting for values whose number stands in `offset` bytes. -/
theorem expect_follows (h : s.Roomy limit buffer) {offset perEntry : Nat} (narrow : offset ≤ 4)
    (inside : s.pos + offset ≤ buffer.length) (few : n * perEntry ≤ 0x200000000) :
    Follows buffer s (.ok (some { skip := offset, items := n * perEntry }))
      (expect n perEntry { s with pos := s.pos + offset }) := by
  have hvalues : n * perEntry < size64 := Nat.lt_of_le_of_lt few (by decide)
  have hpending : s.pending + n * perEntry < size64 := (h.fits (by omega)).2
  rw [expect_eq (s := { s with pos := s.pos + offset }) hvalues hpending]
  exact .passed inside (by simp only; omega)

/-- Waiting for values whose number is known. -/
theorem items_follows (h : s.Roomy limit buffer) {perEntry : Nat} (few : n ≤ 16)
    (hper : perEntry ≤ 2) :
    Follows buffer s (countedExtent limit s.pos (buffer.drop s.pos) (.inline n) perEntry)
      (take limit buffer (.items n perEntry) s) := by
  have hvalues : n * perEntry ≤ 16 * 2 := Nat.mul_le_mul few hper
  exact expect_follows h (Nat.zero_le 4) h.inside (by omega)

/-- Waiting for values whose number is read first. -/
theorem counted_follows (h : s.Roomy limit buffer) {perEntry : Nat} (narrow : width ≤ 4)
    (hper : perEntry ≤ 2) :
    Follows buffer s (countedExtent limit s.pos (buffer.drop s.pos) (.field width) perEntry)
      (take limit buffer (.counted width perEntry) s) := by
  have htold : countedExtent limit s.pos (buffer.drop s.pos) (.field width) perEntry = do
      match ← passBytes limit s.pos width (buffer.drop s.pos) with
      | none => return none
      | some field => return some { skip := width, items := field.toNat * perEntry } := by
    refine bind_congr fun passed => ?_
    cases passed with
    | none => rfl
    | some field => rfl
  rw [htold]
  refine readNumber_bind (h.fits (by omega)).1 h.inside ?_
  intro field hwidth inside
  have hcount : field.toNat < 0x100000000 := toNat_lt_of_narrow (by omega)
  have hvalues : field.toNat * perEntry ≤ 0x100000000 * 2 := Nat.mul_le_mul (by omega) hper
  exact expect_follows h narrow inside (by omega)

/-- Doing what a first byte asks for is passing its extent. -/
theorem take_follows (h : s.Roomy limit buffer) {lead : Lead} {step : Step}
    (hstep : lead.step? = some step) (small : step.Small) :
    Follows buffer s (lead.extent limit s.pos (buffer.drop s.pos))
      (take limit buffer step s) := by
  cases lead with
  | reserved => cases hstep
  | nil | bool _ | small _ | float32 | float64 =>
      cases hstep
      exact skip_follows h (by decide)
  | unsigned width | signed width =>
      cases hstep
      exact skip_follows h (Nat.le_trans small (by decide))
  | str size | bin size | ext size =>
      cases size with
      | inline n =>
          cases hstep
          exact skip_follows h (Nat.le_trans small (by decide))
      | field width =>
          cases hstep
          exact sized_follows h small.1 small.2
  | array size | map size =>
      cases size with
      | inline n =>
          cases hstep
          exact items_follows h small.1 small.2
      | field width =>
          cases hstep
          exact counted_follows h small.1 small.2

theorem pass_of_some {lead : Lead} {step : Step} (h : lead.step? = some step) :
    pass limit buffer lead = take limit buffer step := by
  rw [pass, h]

theorem pass_of_none {lead : Lead} (h : lead.step? = none) (started : 1 ≤ s.pos) :
    pass limit buffer lead s = (.error (.fault (.reservedLead (s.pos - 1))), s) := by
  rw [pass]
  simp only [h]
  rw [get_bind, checked_bind (sub?_of_le started)]
  rfl

/-- Passing what a first byte announces is passing its extent. -/
theorem pass_follows (h : s.Roomy limit buffer) (started : 1 ≤ s.pos) (b : UInt8) :
    Follows buffer s ((Lead.ofByte b).extent limit s.pos (buffer.drop s.pos))
      (pass limit buffer (Lead.ofByte b) s) := by
  cases hstep : (Lead.ofByte b).step? with
  | some step =>
      rw [pass_of_some hstep]
      exact take_follows h hstep (small_of_step? b step hstep)
  | none =>
      rw [pass_of_none hstep started, step?_eq_none_iff.1 hstep]
      exact .fault (Nat.le_refl _) h.inside

/-! ### The whole turn -/

theorem takeLead_of_none (h : buffer[s.pos]? = none) :
    takeLead buffer s = (.error .waits, s) := by
  rw [takeLead, get_bind, h]
  rfl

theorem takeLead_of_some {b : UInt8} (h : buffer[s.pos]? = some b)
    (word : s.pos + 1 < size64) (outstanding : 1 ≤ s.pending) :
    takeLead buffer s = (.ok (Lead.ofByte b), { pos := s.pos + 1, pending := s.pending - 1 }) := by
  rw [takeLead, get_bind, h]
  simp only
  rw [checked_bind (within?_of_lt word), checked_bind (sub?_of_le outstanding)]
  rfl

theorem checkPending_eq (limit : Nat) (word : s.pos + s.pending < size64) :
    checkPending limit s =
      if limit < s.pos + s.pending then
        (.error (.fault (.tooLarge (s.pos + s.pending) limit)), s)
      else (.ok (), s) := by
  rw [checkPending, get_bind, checked_bind (within?_of_lt word), check]
  split
  · rfl
  · rfl

/-- The ways a turn ends, and what the scan finds from where it starts. -/
inductive Settled (limit : Nat) (buffer : Bytes) (s : Scanner) : Except Stop Unit × Scanner → Prop
  | empty (atEnd : s.pos = buffer.length)
      (found : scanFrom limit s.pos s.pending (buffer.drop s.pos) = .ok none) :
      Settled limit buffer s (.error .waits, s)
  | fault {fault : FrameFault} {after : Scanner} (low : s.pos < after.pos)
      (high : after.pos ≤ buffer.length)
      (found : scanFrom limit s.pos s.pending (buffer.drop s.pos) = .error fault) :
      Settled limit buffer s (.error (.fault fault), after)
  | waits {after : Scanner} (low : s.pos < after.pos) (high : after.pos ≤ buffer.length)
      (found : scanFrom limit s.pos s.pending (buffer.drop s.pos) = .ok none) :
      Settled limit buffer s (.error .waits, after)
  | passed {after : Scanner} (low : s.pos < after.pos) (high : after.pos ≤ buffer.length)
      (room : after.pos + after.pending ≤ limit)
      (found : scanFrom limit s.pos s.pending (buffer.drop s.pos) =
        scanFrom limit after.pos after.pending (buffer.drop after.pos)) :
      Settled limit buffer s (.ok (), after)

/-- A turn ends in one of these ways: none of its results is too large for a word. -/
theorem turn_settled (h : s.Roomy limit buffer) (outstanding : s.pending ≠ 0) :
    Settled limit buffer s (turn limit buffer s) := by
  have hsmall := h.small
  have hroom := h.room
  have hinside := h.inside
  rw [turn]
  cases hbyte : buffer[s.pos]? with
  | none =>
      have hend : buffer.length ≤ s.pos := List.getElem?_eq_none_iff.1 hbyte
      rw [bind_of_error (takeLead_of_none hbyte)]
      refine .empty (by omega) ?_
      rw [List.drop_of_length_le hend, scanFrom.eq_def, if_neg outstanding]
  | some b =>
      obtain ⟨hlt, hb⟩ := List.getElem?_eq_some_iff.1 hbyte
      have hdrop : buffer.drop s.pos = b :: buffer.drop (s.pos + 1) := by
        rw [List.drop_eq_getElem_cons hlt, hb]
      have htaken : Roomy limit buffer { pos := s.pos + 1, pending := s.pending - 1 } :=
        ⟨hsmall, hlt, by simp only; omega⟩
      rw [bind_of_ok (takeLead_of_some hbyte (h.fits (by omega)).1 (by omega))]
      have hfollows := pass_follows htaken (Nat.succ_pos _) b
      generalize hpassed : pass limit buffer (Lead.ofByte b) _ = passed at hfollows
      generalize hextent : (Lead.ofByte b).extent limit _ _ = told at hfollows
      cases hfollows with
      | fault low high =>
          rw [bind_of_error hpassed]
          refine .fault low high ?_
          rw [hdrop, scanFrom_cons_of_fault outstanding hextent]
      | waits low high =>
          rw [bind_of_error hpassed]
          refine .waits low high ?_
          rw [hdrop, scanFrom_cons_of_none outstanding hextent]
      | @passed extent high small =>
          have hword : s.pos + 1 + extent.skip + (s.pending - 1 + extent.items) < size64 :=
            Nat.lt_of_le_of_lt (m := 0x8000000000000000 + 1 + 0x400000000) (by omega) (by decide)
          have hscan := scanFrom_cons_of_extent outstanding hextent
          rw [← hdrop] at hscan
          rw [bind_of_ok hpassed, checkPending_eq limit hword]
          split
          · next hover =>
              rw [if_pos hover] at hscan
              exact .fault (by simp only; omega) high hscan
          · next hfits =>
              rw [if_neg hfits, List.drop_drop] at hscan
              exact .passed (by simp only; omega) high (Nat.not_lt.1 hfits) hscan

/-! ### The loop -/

/-- What the loop has come to, against the scan: each turn has passed a byte, and from where the
loop stands the scan finds what it finds in the whole buffer. -/
inductive OnCourse (limit : Nat) (buffer : Bytes) (turns : Nat) : Progress → Prop
  | running {s : Scanner} (outstanding : s.pending ≠ 0) (moved : turns ≤ s.pos)
      (roomy : s.Roomy limit buffer)
      (found : scanFrom limit s.pos s.pending (buffer.drop s.pos) = frameLength limit buffer) :
      OnCourse limit buffer turns (.running s)
  | ended {result : Except FrameFault (Option Nat)} (found : frameLength limit buffer = result) :
      OnCourse limit buffer turns (.ended result)

/-- A turn keeps the loop on course. -/
theorem OnCourse.next {turns : Nat} {progress : Progress}
    (h : OnCourse limit buffer turns progress) :
    OnCourse limit buffer (turns + 1) (progress.next limit buffer) := by
  cases h with
  | ended found => exact .ended found
  | @running s outstanding moved roomy hwhole =>
      have hsettled := turn_settled roomy outstanding
      rw [Progress.next]
      generalize turn limit buffer s = settled at hsettled
      cases hsettled with
      | empty atEnd found => exact .ended (hwhole.symm.trans found)
      | fault low high found => exact .ended (hwhole.symm.trans found)
      | waits low high found => exact .ended (hwhole.symm.trans found)
      | @passed after low high room found =>
          rw [hwhole] at found
          simp only
          split
          · next hdone =>
              rw [hdone, scanFrom.eq_def, if_pos rfl] at found
              exact .ended found
          · next hmore =>
              have hroomy : after.Roomy limit buffer := ⟨roomy.small, high, by omega⟩
              exact .running hmore (by omega) hroomy found.symm

/-- The loop stays on course. -/
theorem scanned_onCourse (small : limit ≤ 0x8000000000000000) (buffer : Bytes) (turns : Nat) :
    OnCourse limit buffer turns (scanned limit buffer turns) := by
  induction turns with
  | zero =>
      have hstart : Roomy limit buffer { pos := 0, pending := 1 } :=
        ⟨small, Nat.zero_le _, by simp only; omega⟩
      exact .running (by simp) (Nat.le_refl 0) hstart rfl
  | succ turns ih => exact ih.next

/-- **The counters stay within their bounds, and the loop ends.**  Every turn that the loop takes
moves past a byte and stays inside the buffer, unless the buffer is at its end; where the turn goes
through, the limit allows for the position and the values outstanding; and all its results fit their
words.  So the loop ends with what the scan finds, within one turn more than there are bytes. -/
theorem counters_sound (small : limit ≤ 0x8000000000000000) (buffer : Bytes) :
    (∀ turns s, scanned limit buffer turns = .running s →
      ∀ result after, turn limit buffer s = (result, after) →
        result ≠ .error .overflow ∧ after.pos ≤ buffer.length ∧
        (s.pos < after.pos ∨ s.pos = buffer.length ∧ result = .error .waits ∧ after = s) ∧
        (result = .ok () → after.pos + after.pending ≤ limit)) ∧
    scanned limit buffer (buffer.length + 1) = .ended (frameLength limit buffer) := by
  constructor
  · intro turns s hrunning result after hturn
    have hcourse := scanned_onCourse small buffer turns
    rw [hrunning] at hcourse
    cases hcourse with
    | running outstanding moved roomy found =>
        have hsettled := turn_settled roomy outstanding
        rw [hturn] at hsettled
        cases hsettled with
        | empty atEnd found => exact ⟨nofun, roomy.inside, .inr ⟨atEnd, rfl, rfl⟩, nofun⟩
        | fault low high found => exact ⟨nofun, high, .inl low, nofun⟩
        | waits low high found => exact ⟨nofun, high, .inl low, nofun⟩
        | passed low high room found => exact ⟨nofun, high, .inl low, fun _ => room⟩
  · have hcourse := scanned_onCourse small buffer (buffer.length + 1)
    generalize scanned limit buffer (buffer.length + 1) = progress at hcourse ⊢
    cases hcourse with
    | running outstanding moved roomy found =>
        have hinside := roomy.inside
        omega
    | ended found => rw [found]

/-- A map that announces the largest count leaves about `2 ^ 33` values outstanding. -/
theorem counters_sound_largestMap :
    turn 0x8000000000000000 [0xdf, 0xff, 0xff, 0xff, 0xff] { pos := 0, pending := 1 } =
        (.ok (), { pos := 5, pending := 8589934590 }) ∧
      5 + 8589934590 ≤ 0x8000000000000000 ∧
      scanned 0x8000000000000000 [0xdf, 0xff, 0xff, 0xff, 0xff] 6 = .ended (.ok none) := by
  have hsound := counters_sound (Nat.le_refl 0x8000000000000000) [0xdf, 0xff, 0xff, 0xff, 0xff]
  have hturn : turn 0x8000000000000000 [0xdf, 0xff, 0xff, 0xff, 0xff] { pos := 0, pending := 1 } =
      (.ok (), { pos := 5, pending := 8589934590 }) := rfl
  have hlength : frameLength 0x8000000000000000 [0xdf, 0xff, 0xff, 0xff, 0xff] = .ok none := by cbv
  refine ⟨hturn, ?_, ?_⟩
  · exact (hsound.1 0 _ rfl _ _ hturn).2.2.2 rfl
  · rw [← hlength]
    exact hsound.2

end Scanner

end StakeLedger.MsgPack
