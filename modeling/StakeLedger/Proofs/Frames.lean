/-
**What decides where a frame ends.**

The scan of a buffer looks at the bytes of the first value and at none behind it.  A buffer with the
same front therefore has the same first value, whatever follows the front, and also if nothing does.
An error is found in what has arrived, so that no later byte takes it back.  The limit allows for
whatever the scan waits for, so that it waits only while less than the limit has arrived.

Main results:

* `StakeLedger.MsgPack.Lead.extent_of_front`, `StakeLedger.MsgPack.Lead.extent_append_of_error` —
  the same for the extent that a first byte announces;
* `StakeLedger.MsgPack.frameLength_of_front` — the front of a buffer decides where its first value
  ends;
* `StakeLedger.MsgPack.frameLength_append_of_error` — a fault is one in every longer buffer;
* `StakeLedger.MsgPack.frameLength_of_partial` — a value that has only partly arrived is incomplete;
* `StakeLedger.MsgPack.frameLength_le_limit`, `StakeLedger.MsgPack.length_lt_of_frameLength_none` —
  neither a complete value nor what waits for more exceeds the limit;
* `StakeLedger.MsgPack.frameLength_stable` — what the scan has found stays found.
-/
import StakeLedger.MsgPack.Frame
import StakeLedger.Proofs.Results

set_option autoImplicit false

namespace StakeLedger.MsgPack

open Results

variable {limit pos n : Nat} {front rest : Bytes} {fault : FrameFault} {extent : Extent}

/-! ### Passing bytes -/

theorem passBytes_eq_some_iff {field : Bytes} :
    passBytes limit pos n rest = .ok (some field) ↔
      pos + n ≤ limit ∧ n ≤ rest.length ∧ rest.take n = field := by
  unfold passBytes Bytes.split?
  rw [List.length_take]
  split
  · next hover => simp [Nat.not_le.2 hover]
  · split
    · next hfew =>
        have : ¬ n ≤ rest.length := by omega
        simp [this]
    · next hlimit henough =>
        have : n ≤ rest.length := by omega
        simp [this, Nat.not_lt.1 hlimit]

/-- Whether the limit allows for the bytes does not depend on them. -/
theorem passBytes_eq_error_iff :
    passBytes limit pos n rest = .error fault ↔
      limit < pos + n ∧ .tooLarge (pos + n) limit = fault := by
  unfold passBytes
  split
  · next hover => simp [hover]
  · next hlimit => simp [hlimit]

/-- Bytes that are waited for are within the limit and have not arrived. -/
theorem passBytes_eq_none_iff :
    passBytes limit pos n rest = .ok none ↔ pos + n ≤ limit ∧ rest.length < n := by
  unfold passBytes
  split
  · next hover => simp [Nat.not_le.2 hover]
  · next hlimit => simp [Bytes.split?_eq_none_iff, Nat.not_lt.1 hlimit]

theorem passBytes_of_front {field : Bytes}
    (h : passBytes limit pos n (front ++ rest) = .ok (some field)) (inside : n ≤ front.length)
    (other : Bytes) : passBytes limit pos n (front ++ other) = .ok (some field) := by
  obtain ⟨hlimit, -, hfield⟩ := passBytes_eq_some_iff.1 h
  refine passBytes_eq_some_iff.2 ⟨hlimit, ?_, ?_⟩
  · rw [List.length_append]
    omega
  · rwa [List.take_append_of_le_length inside] at hfield ⊢

theorem passBytes_of_error (h : passBytes limit pos n rest = .error fault) (other : Bytes) :
    passBytes limit pos n other = .error fault :=
  passBytes_eq_error_iff.2 (passBytes_eq_error_iff.1 h)

/-! ### What is found by passing bytes -/

section Announced

variable {α : Type} {passed : Except FrameFault (Option Bytes)} {found : Bytes → α}

theorem announced_eq_some_iff {a : α} :
    (do return (← passed).map found : Except FrameFault (Option α)) = .ok (some a) ↔
      ∃ field, passed = .ok (some field) ∧ found field = a := by
  rw [bind_eq_ok]
  constructor
  · rintro ⟨maybe, hpassed, hmap⟩
    obtain ⟨field, rfl, rfl⟩ := Option.map_eq_some_iff.1 (Except.ok.inj hmap)
    exact ⟨field, hpassed, rfl⟩
  · rintro ⟨field, hpassed, rfl⟩
    exact ⟨some field, hpassed, rfl⟩

theorem announced_eq_none_iff :
    (do return (← passed).map found : Except FrameFault (Option α)) = .ok none ↔
      passed = .ok none := by
  rw [bind_eq_ok]
  constructor
  · rintro ⟨maybe, hpassed, hmap⟩
    rw [Option.map_eq_none_iff.1 (Except.ok.inj hmap)] at hpassed
    exact hpassed
  · intro hpassed
    exact ⟨none, hpassed, rfl⟩

theorem announced_eq_error_iff :
    (do return (← passed).map found : Except FrameFault (Option α)) = .error fault ↔
      passed = .error fault := by
  rw [bind_eq_error]
  constructor
  · rintro (h | ⟨maybe, -, h⟩)
    · exact h
    · cases h
  · exact Or.inl

end Announced

/-! ### The extent after a first byte -/

theorem fixedExtent_of_front (h : fixedExtent limit pos (front ++ rest) n = .ok (some extent))
    (inside : extent.skip ≤ front.length) (other : Bytes) :
    fixedExtent limit pos (front ++ other) n = .ok (some extent) := by
  obtain ⟨field, hfield, rfl⟩ := announced_eq_some_iff.1 h
  exact announced_eq_some_iff.2 ⟨field, passBytes_of_front hfield inside other, rfl⟩

theorem fixedExtent_append_of_error (h : fixedExtent limit pos rest n = .error fault)
    (more : Bytes) : fixedExtent limit pos (rest ++ more) n = .error fault :=
  announced_eq_error_iff.2 (passBytes_of_error (announced_eq_error_iff.1 h) _)

theorem sizedExtent_of_front {size : Size} {extra : Nat}
    (h : sizedExtent limit pos (front ++ rest) size extra = .ok (some extent))
    (inside : extent.skip ≤ front.length) (other : Bytes) :
    sizedExtent limit pos (front ++ other) size extra = .ok (some extent) := by
  cases size with
  | inline n => exact fixedExtent_of_front h inside other
  | field width =>
      obtain ⟨maybe, hwidth, h⟩ := bind_eq_ok.1 h
      cases maybe with
      | none => cases h
      | some field =>
          obtain ⟨data, hdata, rfl⟩ := announced_eq_some_iff.1 h
          have hinside : width + (field.toNat + extra) ≤ front.length := inside
          have hfront : width ≤ front.length := by omega
          refine bind_eq_ok.2 ⟨some field, passBytes_of_front hwidth hfront other, ?_⟩
          refine announced_eq_some_iff.2 ⟨data, ?_, rfl⟩
          rw [List.drop_append_of_le_length hfront] at hdata ⊢
          refine passBytes_of_front hdata ?_ other
          rw [List.length_drop]
          omega

theorem sizedExtent_append_of_error {size : Size} {extra : Nat}
    (h : sizedExtent limit pos rest size extra = .error fault) (more : Bytes) :
    sizedExtent limit pos (rest ++ more) size extra = .error fault := by
  cases size with
  | inline n => exact fixedExtent_append_of_error h more
  | field width =>
      obtain hwidth | ⟨maybe, hwidth, h⟩ := bind_eq_error.1 h
      · exact bind_eq_error.2 (Or.inl (passBytes_of_error hwidth _))
      · cases maybe with
        | none => cases h
        | some field =>
            -- the size has arrived, and with it all that the limit is asked about
            have hfront := (passBytes_eq_some_iff.1 hwidth).2.1
            rw [← List.append_nil rest] at hwidth
            refine bind_eq_error.2 (Or.inr ⟨some field, passBytes_of_front hwidth hfront more, ?_⟩)
            exact announced_eq_error_iff.2 (passBytes_of_error (announced_eq_error_iff.1 h) _)

theorem countedExtent_of_front {size : Size} {perEntry : Nat}
    (h : countedExtent limit pos (front ++ rest) size perEntry = .ok (some extent))
    (inside : extent.skip ≤ front.length) (other : Bytes) :
    countedExtent limit pos (front ++ other) size perEntry = .ok (some extent) := by
  cases size with
  | inline n => exact h
  | field width =>
      obtain ⟨field, hfield, rfl⟩ := announced_eq_some_iff.1 h
      exact announced_eq_some_iff.2 ⟨field, passBytes_of_front hfield inside other, rfl⟩

theorem countedExtent_append_of_error {size : Size} {perEntry : Nat}
    (h : countedExtent limit pos rest size perEntry = .error fault) (more : Bytes) :
    countedExtent limit pos (rest ++ more) size perEntry = .error fault := by
  cases size with
  | inline n => cases h
  | field width =>
      exact announced_eq_error_iff.2 (passBytes_of_error (announced_eq_error_iff.1 h) _)

/-- The bytes that belong to a value decide what its first byte announces. -/
theorem Lead.extent_of_front {lead : Lead}
    (h : lead.extent limit pos (front ++ rest) = .ok (some extent))
    (inside : extent.skip ≤ front.length) (other : Bytes) :
    lead.extent limit pos (front ++ other) = .ok (some extent) := by
  cases lead with
  | reserved => cases h
  | nil | bool _ | small _ | unsigned _ | signed _ | float32 | float64 =>
      exact fixedExtent_of_front h inside other
  | str _ | bin _ | ext _ => exact sizedExtent_of_front h inside other
  | array _ | map _ => exact countedExtent_of_front h inside other

theorem Lead.extent_append_of_some {lead : Lead}
    (h : lead.extent limit pos rest = .ok (some extent)) (more : Bytes) :
    lead.extent limit pos (rest ++ more) = .ok (some extent) := by
  have hinside := Lead.extent_some h
  rw [← List.append_nil rest] at h
  exact Lead.extent_of_front h hinside more

theorem Lead.extent_append_of_error {lead : Lead} (h : lead.extent limit pos rest = .error fault)
    (more : Bytes) : lead.extent limit pos (rest ++ more) = .error fault := by
  cases lead with
  | reserved => exact h
  | nil | bool _ | small _ | unsigned _ | signed _ | float32 | float64 =>
      exact fixedExtent_append_of_error h more
  | str _ | bin _ | ext _ => exact sizedExtent_append_of_error h more
  | array _ | map _ => exact countedExtent_append_of_error h more

/-! ### Extents that have not arrived

The limit allows for whatever is waited for, so that less than the limit has arrived. -/

theorem fixedExtent_eq_none_iff :
    fixedExtent limit pos rest n = .ok none ↔ pos + n ≤ limit ∧ rest.length < n := by
  rw [fixedExtent, announced_eq_none_iff, passBytes_eq_none_iff]

theorem sizedExtent_none {size : Size} {extra : Nat}
    (h : sizedExtent limit pos rest size extra = .ok none) : pos + rest.length < limit := by
  cases size with
  | inline n =>
      obtain ⟨hlimit, hfew⟩ := fixedExtent_eq_none_iff.1 h
      omega
  | field width =>
      obtain ⟨maybe, hwidth, h⟩ := bind_eq_ok.1 h
      cases maybe with
      | none =>
          obtain ⟨hlimit, hfew⟩ := passBytes_eq_none_iff.1 hwidth
          omega
      | some field =>
          obtain ⟨hlimit, hfew⟩ := passBytes_eq_none_iff.1 (announced_eq_none_iff.1 h)
          rw [List.length_drop] at hfew
          omega

theorem countedExtent_none {size : Size} {perEntry : Nat}
    (h : countedExtent limit pos rest size perEntry = .ok none) : pos + rest.length < limit := by
  cases size with
  | inline n => cases h
  | field width =>
      obtain ⟨hlimit, hfew⟩ := passBytes_eq_none_iff.1 (announced_eq_none_iff.1 h)
      omega

theorem Lead.extent_none {lead : Lead} (h : lead.extent limit pos rest = .ok none) :
    pos + rest.length < limit := by
  cases lead with
  | reserved => cases h
  | nil | bool _ | small _ | unsigned _ | signed _ | float32 | float64 =>
      obtain ⟨hlimit, hfew⟩ := fixedExtent_eq_none_iff.1 h
      omega
  | str _ | bin _ | ext _ => exact sizedExtent_none h
  | array _ | map _ => exact countedExtent_none h

/-! ### The scan -/

section Scan

variable {pending : Nat} {b : UInt8}

theorem scanFrom_cons_of_fault (outstanding : pending ≠ 0)
    (h : (Lead.ofByte b).extent limit (pos + 1) rest = .error fault) :
    scanFrom limit pos pending (b :: rest) = .error fault := by
  rw [scanFrom, if_neg outstanding]
  simp only [h]

theorem scanFrom_cons_of_none (outstanding : pending ≠ 0)
    (h : (Lead.ofByte b).extent limit (pos + 1) rest = .ok none) :
    scanFrom limit pos pending (b :: rest) = .ok none := by
  rw [scanFrom, if_neg outstanding]
  simp only [h]

/-- A first byte whose value has arrived either breaks the limit or is passed. -/
theorem scanFrom_cons_of_extent (outstanding : pending ≠ 0)
    (h : (Lead.ofByte b).extent limit (pos + 1) rest = .ok (some extent)) :
    scanFrom limit pos pending (b :: rest) =
      if limit < pos + 1 + extent.skip + (pending - 1 + extent.items) then
        .error (.tooLarge (pos + 1 + extent.skip + (pending - 1 + extent.items)) limit)
      else
        scanFrom limit (pos + 1 + extent.skip) (pending - 1 + extent.items)
          (rest.drop extent.skip) := by
  rw [scanFrom, if_neg outstanding]
  simp only [h]

/-- Where the scan ends, the limit has been checked; it is not checked where the scan starts. -/
theorem scanFrom_le_limit (h : scanFrom limit pos pending rest = .ok (some n))
    (start : pending = 0 → pos ≤ limit) : n ≤ limit := by
  fun_induction scanFrom limit pos pending rest with
  | case1 pos rest =>
      cases h
      exact start rfl
  | case2 | case3 | case4 | case5 => cases h
  | case6 pos pending outstanding b rest extent hextent pos' pending' hlimit ih =>
      exact ih h fun _ => by omega

/-- A scan that waits has less than the limit in front of it, whichever piece it waits for. -/
theorem scanFrom_lt_limit (h : scanFrom limit pos pending rest = .ok none)
    (room : pos + pending ≤ limit) : pos + rest.length < limit := by
  fun_induction scanFrom limit pos pending rest with
  | case1 | case3 | case5 => cases h
  | case2 pos pending outstanding =>
      rw [List.length_nil]
      omega
  | case4 pos pending outstanding b rest hextent =>
      have hwaits := Lead.extent_none hextent
      rw [List.length_cons]
      omega
  | case6 pos pending outstanding b rest extent hextent pos' pending' hlimit ih =>
      have hskip := Lead.extent_some hextent
      have hrest := ih h (Nat.not_lt.1 hlimit)
      rw [List.length_drop] at hrest
      rw [List.length_cons]
      omega

/-- The bytes up to where the scan ends decide that it ends there. -/
theorem scanFrom_of_front (h : scanFrom limit pos pending (front ++ rest) = .ok (some n))
    (inside : n ≤ pos + front.length) (other : Bytes) :
    scanFrom limit pos pending (front ++ other) = .ok (some n) := by
  -- each turn of the scan cuts the value that it passed off the front
  generalize hbuffer : front ++ rest = buffer at h
  fun_induction scanFrom limit pos pending buffer generalizing front with
  | case1 pos buffer =>
      rw [scanFrom.eq_def, if_pos rfl]
      exact h
  | case2 | case3 | case4 | case5 => cases h
  | case6 pos pending outstanding b tail extent hextent pos' pending' hlimit =>
      rename_i ih
      have hend : pos + 1 + extent.skip ≤ n := (scanFrom_bounds h).1
      cases front with
      | nil =>
          rw [List.length_nil] at inside
          omega
      | cons first front =>
          obtain ⟨rfl, rfl⟩ := List.cons.inj hbuffer
          rw [List.length_cons] at inside
          have hskip : extent.skip ≤ front.length := by omega
          have hother := Lead.extent_of_front hextent hskip other
          rw [List.cons_append, scanFrom_cons_of_extent outstanding hother, if_neg hlimit,
            List.drop_append_of_le_length hskip]
          refine ih ?_ (List.drop_append_of_le_length hskip).symm h
          change n ≤ pos + 1 + extent.skip + (front.drop extent.skip).length
          rw [List.length_drop]
          omega

/-- A fault that the scan finds is found in every longer buffer. -/
theorem scanFrom_append_of_error (h : scanFrom limit pos pending rest = .error fault)
    (more : Bytes) : scanFrom limit pos pending (rest ++ more) = .error fault := by
  fun_induction scanFrom limit pos pending rest with
  | case1 | case2 | case4 => cases h
  | case3 pos pending outstanding b rest fault' hextent =>
      cases h
      exact scanFrom_cons_of_fault outstanding (Lead.extent_append_of_error hextent more)
  | case5 pos pending outstanding b rest extent hextent pos' pending' hlimit =>
      have hextent' := Lead.extent_append_of_some hextent more
      rw [List.cons_append, scanFrom_cons_of_extent outstanding hextent', if_pos hlimit]
      exact h
  | case6 pos pending outstanding b rest extent hextent pos' pending' hlimit ih =>
      have hskip := Lead.extent_some hextent
      have hextent' := Lead.extent_append_of_some hextent more
      rw [List.cons_append, scanFrom_cons_of_extent outstanding hextent', if_neg hlimit,
        List.drop_append_of_le_length hskip]
      exact ih h

end Scan

/-- A complete value is within the limit. -/
theorem frameLength_le_limit (h : frameLength limit rest = .ok (some n)) : n ≤ limit :=
  scanFrom_le_limit h nofun

/-- **As long as a value is waited for, less than the limit has arrived.** -/
theorem length_lt_of_frameLength_none (h : frameLength limit rest = .ok none)
    (positive : 0 < limit) : rest.length < limit := by
  have hwaits := scanFrom_lt_limit h (by omega)
  rwa [Nat.zero_add] at hwaits

/-- **The front of a buffer decides where its first value ends.** -/
theorem frameLength_of_front (h : frameLength limit (front ++ rest) = .ok (some n))
    (inside : n ≤ front.length) (other : Bytes) :
    frameLength limit (front ++ other) = .ok (some n) :=
  scanFrom_of_front h (by omega) other

theorem frameLength_append_of_some (h : frameLength limit rest = .ok (some n)) (more : Bytes) :
    frameLength limit (rest ++ more) = .ok (some n) := by
  have hinside := frameLength_le_length h
  rw [← List.append_nil rest] at h
  exact frameLength_of_front h hinside more

/-- **A fault is one in every longer buffer.** -/
theorem frameLength_append_of_error (h : frameLength limit rest = .error fault) (more : Bytes) :
    frameLength limit (rest ++ more) = .error fault :=
  scanFrom_append_of_error h more

/-- As long as a value has only partly arrived, the scan neither ends nor finds a fault. -/
theorem frameLength_of_partial (h : frameLength limit (front ++ rest) = .ok (some n))
    (incomplete : front.length < n) : frameLength limit front = .ok none := by
  cases hfront : frameLength limit front with
  | error fault =>
      rw [frameLength_append_of_error hfront rest] at h
      cases h
  | ok found =>
      cases found with
      | none => rfl
      | some k =>
          have hinside := frameLength_le_length hfront
          rw [frameLength_append_of_some hfront rest] at h
          cases h
          omega

/-- **What the scan has found stays found: a value that is complete lies inside the buffer and the
limit, is complete at the same length whatever follows, and is incomplete in every shorter front of
itself; and a fault is the same fault whatever follows.** -/
theorem frameLength_stable (limit : Nat) (buffer : Bytes) :
    (∀ n, frameLength limit buffer = .ok (some n) →
      (1 ≤ n ∧ n ≤ buffer.length ∧ n ≤ limit) ∧
        (∀ more, frameLength limit (buffer ++ more) = .ok (some n)) ∧
        ∀ k < n, frameLength limit (buffer.take k) = .ok none) ∧
    ∀ fault, frameLength limit buffer = .error fault →
      ∀ more, frameLength limit (buffer ++ more) = .error fault := by
  refine ⟨fun n h => ⟨?_, fun more => frameLength_append_of_some h more, fun k hk => ?_⟩,
    fun fault h more => frameLength_append_of_error h more⟩
  · exact ⟨frameLength_pos h, frameLength_le_length h, frameLength_le_limit h⟩
  · have hinside := frameLength_le_length h
    rw [← List.take_append_drop k buffer] at h
    refine frameLength_of_partial h ?_
    rw [List.length_take_of_le (by omega)]
    exact hk

/-- An array whose second item is a byte of data ends after five bytes, also before the reserved
byte, and a limit of four bytes refuses it as soon as the size of the data is there. -/
theorem frameLength_stable_nested :
    frameLength 5 [0x92, 0x01, 0xc4, 0x01, 0x07, 0x05] = .ok (some 5) ∧
      frameLength 5 ([0x92, 0x01, 0xc4, 0x01, 0x07, 0x05] ++ [0xc1]) = .ok (some 5) ∧
      frameLength 5 ([0x92, 0x01, 0xc4, 0x01, 0x07, 0x05].take 4) = .ok none ∧
      frameLength 4 [0x92, 0x01, 0xc4, 0x01] = .error (.tooLarge 5 4) ∧
      frameLength 4 ([0x92, 0x01, 0xc4, 0x01] ++ [0x07]) = .error (.tooLarge 5 4) := by
  have hends : frameLength 5 [0x92, 0x01, 0xc4, 0x01, 0x07, 0x05] = .ok (some 5) := by cbv
  have hover : frameLength 4 [0x92, 0x01, 0xc4, 0x01] = .error (.tooLarge 5 4) := by cbv
  obtain ⟨-, hlonger, hshorter⟩ := (frameLength_stable 5 _).1 5 hends
  exact ⟨hends, hlonger [0xc1], hshorter 4 (by decide), hover,
    (frameLength_stable 4 _).2 _ hover [0x07]⟩

end StakeLedger.MsgPack
