/-
**What is waited for, and for how long.**

Bytes at the front of a buffer are the start of many values, the shortest of which is found by
counting every byte that has not arrived as zero: a zero in a size is the least size, and a zero in
the place of a value is a value of one byte.  The scan waits for more as long as the piece that it
has in hand fits in the limit.  It does not add the values outstanding behind that piece, nor what a
partly arrived size already tells of itself; so it can wait for a value that no bytes complete
within the limit, and refuses it at the latest once as many bytes have arrived as the limit allows
for.

An unpacker that waits always holds less than its limit.

Main definitions:

* `StakeLedger.MsgPack.Lead.leastExtent` — the least extent that the bytes behind a first byte allow
  for;
* `StakeLedger.MsgPack.leastLength` — **the length of the shortest value that starts with the
  bytes**.

Main results:

* `StakeLedger.MsgPack.leastFrom_le_of_scanFrom`, `StakeLedger.MsgPack.scanFrom_zeros` — no
  completion is shorter than the least length, and zeros reach it;
* `StakeLedger.MsgPack.frameLength_completable_iff` — **what is waited for can be completed within
  the limit if and only if its least length is within the limit**; else it is refused at the latest
  once as many bytes have arrived as the limit allows for;
* `StakeLedger.MsgPack.frameLength_waits_in_vain` — a value that is waited for and cannot be
  completed;
* `StakeLedger.Unpacker.waits_below_limit` — an unpacker waits only below its limit.
-/
import StakeLedger.Proofs.Chunking
import StakeLedger.Proofs.Pieces

set_option autoImplicit false

namespace StakeLedger

/-! ### Bytes that have not arrived -/

namespace Bytes

/-- The first `width` bytes, with zeros for those that have not arrived. -/
def padded (width : Nat) (bytes : Bytes) : Bytes := (bytes ++ List.replicate width 0).take width

variable {width : Nat} {bytes : Bytes}

theorem padded_append_of_le (arrived : width ≤ bytes.length) (more : Bytes) :
    padded width (bytes ++ more) = bytes.take width := by
  rw [padded, List.append_assoc, List.take_append_of_le_length arrived]

theorem padded_of_le (arrived : width ≤ bytes.length) : padded width bytes = bytes.take width :=
  List.take_append_of_le_length arrived

/-- Of the bytes that are still to come, zeros are those that are counted already. -/
theorem padded_append_zeros (width count : Nat) (bytes : Bytes) :
    padded width (bytes ++ List.replicate count 0) = padded width bytes := by
  rw [padded, padded, List.append_assoc, List.replicate_append_replicate, List.take_append,
    List.take_append, List.take_replicate, List.take_replicate]
  congr 2
  omega

/-- Zeros spell the least number: whatever stands in their place, and whatever stands in front. -/
theorem foldl_zeros_le {low high : Nat} (h : low ≤ high) (bytes : Bytes) :
    (List.replicate bytes.length 0).foldl (fun n b => n * 256 + UInt8.toNat b) low ≤
      bytes.foldl (fun n b => n * 256 + b.toNat) high := by
  induction bytes generalizing low high with
  | nil => exact h
  | cons b rest ih =>
      rw [List.length_cons, List.replicate_succ, List.foldl_cons, List.foldl_cons]
      have hzero : UInt8.toNat 0 = 0 := rfl
      exact ih (by omega)

theorem toNat_padded_le (width : Nat) (bytes more : Bytes) :
    toNat (padded width bytes) ≤ toNat (padded width (bytes ++ more)) := by
  rcases Nat.le_total width bytes.length with harrived | hfew
  · exact Nat.le_of_eq (by rw [padded_append_of_le harrived, padded_of_le harrived])
  · -- what has arrived is the same on both sides, and zeros stand against what follows it
    have hcut : ∀ tail : Bytes, (bytes ++ tail).take width =
        bytes ++ tail.take (width - bytes.length) := fun tail => by
      rw [List.take_append, List.take_of_length_le hfew]
    generalize hback : (more ++ List.replicate width 0).take (width - bytes.length) = back
    have hlength : back.length = width - bytes.length := by
      rw [← hback, List.length_take, List.length_append, List.length_replicate]
      omega
    rw [padded, padded, List.append_assoc, hcut, hcut, hback, List.take_replicate,
      Nat.min_eq_left (Nat.sub_le _ _), ← hlength, toNat, toNat, List.foldl_append,
      List.foldl_append]
    exact foldl_zeros_le (Nat.le_refl _) back

end Bytes

namespace MsgPack

open Results

/-! ### The least extent -/

/-- In how many bytes a size is given. -/
def Size.width : Size → Nat
  | .inline _ => 0
  | .field width => width

/-- The least size that the bytes behind a first byte allow for. -/
def Size.least (rest : Bytes) : Size → Nat
  | .inline n => n
  | .field width => (Bytes.padded width rest).toNat

/-- The size that a first byte asks for, if it asks for one. -/
def Lead.size : Lead → Size
  | .str size | .bin size | .ext size | .array size | .map size => size
  | .nil | .reserved | .bool _ | .small _ | .unsigned _ | .signed _ | .float32 | .float64 =>
      .inline 0

/-- The extent that a first byte announces if the size that it asks for is `n`. -/
def Lead.extentOf (n : Nat) : Lead → Extent
  | .nil | .reserved | .bool _ | .small _ => { skip := 0, items := 0 }
  | .unsigned width | .signed width => { skip := width, items := 0 }
  | .float32 => { skip := 4, items := 0 }
  | .float64 => { skip := 8, items := 0 }
  | .str size | .bin size => { skip := size.width + n, items := 0 }
  | .ext size => { skip := size.width + (n + 1), items := 0 }
  | .array size => { skip := size.width, items := n }
  | .map size => { skip := size.width, items := n * 2 }

/-- **The least extent that the bytes behind a first byte allow for.** -/
def Lead.leastExtent (rest : Bytes) (lead : Lead) : Extent :=
  lead.extentOf (lead.size.least rest)

variable {limit pos pending n items count : Nat} {data rest : Bytes} {fault : FrameFault}
  {extent : Extent} {lead : Lead} {b : UInt8}

theorem Size.least_le_append (size : Size) (rest more : Bytes) :
    size.least rest ≤ size.least (rest ++ more) := by
  cases size with
  | inline n => exact Nat.le_refl n
  | field width => exact Bytes.toNat_padded_le width rest more

theorem Size.least_append_of_le {size : Size} (arrived : size.width ≤ rest.length) (more : Bytes) :
    size.least (rest ++ more) = size.least rest := by
  cases size with
  | inline n => rfl
  | field width =>
      have harrived : width ≤ rest.length := arrived
      rw [least, least, Bytes.padded_append_of_le harrived, Bytes.padded_of_le harrived]

theorem Size.least_append_zeros (size : Size) (rest : Bytes) (count : Nat) :
    size.least (rest ++ List.replicate count 0) = size.least rest := by
  cases size with
  | inline n => rfl
  | field width => exact congrArg Bytes.toNat (Bytes.padded_append_zeros width count rest)

/-- A size that has arrived is the least one, and the only one. -/
theorem Size.Takes.least_append {size : Size} (h : size.Takes data n) (more : Bytes) :
    data.length = size.width ∧ size.least (data ++ more) = n := by
  cases size with
  | inline k =>
      obtain ⟨rfl, rfl⟩ := h
      exact ⟨rfl, rfl⟩
  | field width =>
      obtain ⟨rfl, rfl⟩ := h
      refine ⟨rfl, congrArg Bytes.toNat ?_⟩
      rw [Bytes.padded_append_of_le (Nat.le_refl _), List.take_length]

theorem Lead.width_le_skip (lead : Lead) (n : Nat) : lead.size.width ≤ (lead.extentOf n).skip := by
  cases lead with
  | nil | reserved | bool _ | small _ | unsigned _ | signed _ | float32 | float64 =>
      exact Nat.zero_le _
  | str size | bin size | ext size => exact Nat.le_add_right _ _
  | array size | map size => exact Nat.le_refl _

theorem Lead.extentOf_le (lead : Lead) {m : Nat} (h : n ≤ m) :
    (lead.extentOf n).skip ≤ (lead.extentOf m).skip ∧
      (lead.extentOf n).items ≤ (lead.extentOf m).items := by
  cases lead with
  | nil | reserved | bool _ | small _ | unsigned _ | signed _ | float32 | float64 =>
      exact ⟨Nat.le_refl _, Nat.le_refl _⟩
  | str size | bin size => exact ⟨Nat.add_le_add_left h _, Nat.le_refl _⟩
  | ext size => exact ⟨Nat.add_le_add_left (Nat.add_le_add_right h 1) _, Nat.le_refl _⟩
  | array size => exact ⟨Nat.le_refl _, h⟩
  | map size => exact ⟨Nat.le_refl _, Nat.mul_le_mul_right 2 h⟩

/-- More bytes announce no less. -/
theorem Lead.leastExtent_le_append (lead : Lead) (rest more : Bytes) :
    (lead.leastExtent rest).skip ≤ (lead.leastExtent (rest ++ more)).skip ∧
      (lead.leastExtent rest).items ≤ (lead.leastExtent (rest ++ more)).items :=
  lead.extentOf_le (lead.size.least_le_append rest more)

/-- Bytes behind the extent do not matter to it. -/
theorem Lead.leastExtent_append_of_le (arrived : (lead.leastExtent rest).skip ≤ rest.length)
    (more : Bytes) : lead.leastExtent (rest ++ more) = lead.leastExtent rest := by
  have hwidth := lead.width_le_skip (lead.size.least rest)
  rw [leastExtent, Size.least_append_of_le (Nat.le_trans hwidth arrived), leastExtent]

theorem Lead.leastExtent_append_zeros (lead : Lead) (rest : Bytes) (count : Nat) :
    lead.leastExtent (rest ++ List.replicate count 0) = lead.leastExtent rest := by
  rw [leastExtent, Size.least_append_zeros, leastExtent]

/-! ### The least extent and the scan -/

/-- What belongs to a first byte is its least extent. -/
theorem Lead.Takes.leastExtent_append (h : lead.Takes data items) (more : Bytes) :
    lead.leastExtent (data ++ more) = { skip := data.length, items } := by
  cases lead with
  | nil | reserved | bool _ | small _ | unsigned _ | signed _ | float32 | float64 =>
      obtain ⟨hlength, rfl⟩ := h
      rw [hlength]
      rfl
  | str size | bin size =>
      obtain ⟨field, body, rfl, hsize, rfl⟩ := h
      obtain ⟨hwidth, hleast⟩ := hsize.least_append (body ++ more)
      rw [List.append_assoc, List.length_append, hwidth, ← hleast]
      rfl
  | ext size =>
      obtain ⟨field, type, body, rfl, hsize, rfl⟩ := h
      obtain ⟨hwidth, hleast⟩ := hsize.least_append (type :: body ++ more)
      rw [List.append_assoc, List.length_append, List.length_cons, hwidth, ← hleast]
      rfl
  | array size =>
      obtain ⟨hwidth, hleast⟩ := Size.Takes.least_append h more
      rw [hwidth, ← hleast]
      rfl
  | map size =>
      obtain ⟨entries, hsize, rfl⟩ := h
      obtain ⟨hwidth, hleast⟩ := hsize.least_append more
      rw [hwidth, ← hleast]
      rfl

/-- An extent that the scan finds is the least one. -/
theorem Lead.leastExtent_of_some (h : lead.extent limit pos rest = .ok (some extent)) :
    lead.leastExtent rest = extent := by
  have hleast := (Lead.takes_of_extent h).leastExtent_append (rest.drop extent.skip)
  rwa [List.take_append_drop, List.length_take_of_le (Lead.extent_some h)] at hleast

/-- A size that has arrived stands where its least one is looked for. -/
theorem padded_eq_of_passBytes {width : Nat} {field : Bytes}
    (h : passBytes limit pos width rest = .ok (some field)) : Bytes.padded width rest = field := by
  obtain ⟨-, hwidth, rfl⟩ := passBytes_eq_some_iff.1 h
  exact Bytes.padded_of_le hwidth

theorem fixedExtent_waits (h : fixedExtent limit pos rest n = .ok none) : rest.length < n :=
  (fixedExtent_eq_none_iff.1 h).2

theorem fixedExtent_refuses (h : fixedExtent limit pos rest n = .error fault) : limit < pos + n :=
  (passBytes_eq_error_iff.1 (announced_eq_error_iff.1 h)).1

theorem sizedExtent_waits {size : Size} {extra : Nat}
    (h : sizedExtent limit pos rest size extra = .ok none) :
    rest.length < size.width + (size.least rest + extra) := by
  cases size with
  | inline k =>
      have hfew : rest.length < k + extra := fixedExtent_waits h
      change rest.length < 0 + (k + extra)
      omega
  | field width =>
      change rest.length < width + (Bytes.toNat (Bytes.padded width rest) + extra)
      obtain ⟨maybe, hwidth, h⟩ := bind_eq_ok.1 h
      cases maybe with
      | none =>
          have hfew := (passBytes_eq_none_iff.1 hwidth).2
          omega
      | some field =>
          have hfew := (passBytes_eq_none_iff.1 (announced_eq_none_iff.1 h)).2
          rw [List.length_drop] at hfew
          rw [padded_eq_of_passBytes hwidth]
          omega

theorem sizedExtent_refuses {size : Size} {extra : Nat}
    (h : sizedExtent limit pos rest size extra = .error fault) :
    limit < pos + (size.width + (size.least rest + extra)) := by
  cases size with
  | inline k =>
      have hover : limit < pos + (k + extra) := fixedExtent_refuses h
      change limit < pos + (0 + (k + extra))
      omega
  | field width =>
      change limit < pos + (width + (Bytes.toNat (Bytes.padded width rest) + extra))
      obtain hwidth | ⟨maybe, hwidth, h⟩ := bind_eq_error.1 h
      · have hover := (passBytes_eq_error_iff.1 hwidth).1
        omega
      · cases maybe with
        | none => cases h
        | some field =>
            have hover := (passBytes_eq_error_iff.1 (announced_eq_error_iff.1 h)).1
            rw [padded_eq_of_passBytes hwidth]
            omega

theorem countedExtent_waits {size : Size} {perEntry : Nat}
    (h : countedExtent limit pos rest size perEntry = .ok none) : rest.length < size.width := by
  cases size with
  | inline k => cases h
  | field width => exact (passBytes_eq_none_iff.1 (announced_eq_none_iff.1 h)).2

theorem countedExtent_refuses {size : Size} {perEntry : Nat}
    (h : countedExtent limit pos rest size perEntry = .error fault) :
    limit < pos + size.width := by
  cases size with
  | inline k => cases h
  | field width => exact (passBytes_eq_error_iff.1 (announced_eq_error_iff.1 h)).1

/-- The scan waits for an extent only while the least one has not arrived. -/
theorem Lead.extent_waits (h : lead.extent limit pos rest = .ok none) :
    rest.length < (lead.leastExtent rest).skip := by
  cases lead with
  | reserved => cases h
  | nil | bool _ | small _ | unsigned _ | signed _ | float32 | float64 =>
      exact fixedExtent_waits h
  | str size | bin size | ext size => exact sizedExtent_waits h
  | array size | map size => exact countedExtent_waits h

/-- The scan refuses an extent only if the least one breaks the limit. -/
theorem Lead.extent_refuses (sane : lead ≠ .reserved)
    (h : lead.extent limit pos rest = .error fault) :
    limit < pos + (lead.leastExtent rest).skip := by
  cases lead with
  | reserved => exact absurd rfl sane
  | nil | bool _ | small _ | unsigned _ | signed _ | float32 | float64 =>
      exact fixedExtent_refuses h
  | str size | bin size | ext size => exact sizedExtent_refuses h
  | array size | map size => exact countedExtent_refuses h

/-- Within the limit the scan finds the least extent as soon as its bytes have arrived. -/
theorem Lead.extent_of_arrived (sane : lead ≠ .reserved)
    (room : pos + (lead.leastExtent rest).skip ≤ limit)
    (arrived : (lead.leastExtent rest).skip ≤ rest.length) :
    lead.extent limit pos rest = .ok (some (lead.leastExtent rest)) := by
  cases h : lead.extent limit pos rest with
  | error fault => exact absurd (Lead.extent_refuses sane h) (Nat.not_lt.2 room)
  | ok found =>
      cases found with
      | none => exact absurd (Lead.extent_waits h) (Nat.not_lt.2 arrived)
      | some extent => rw [Lead.leastExtent_of_some h]

/-! ### The least length -/

/-- The least position at which `pending` values end that start with `rest` at `pos`. -/
def leastFrom (pos pending : Nat) (rest : Bytes) : Nat :=
  if pending = 0 then pos
  else match rest with
    | [] => pos + pending
    | b :: rest =>
        let extent := (Lead.ofByte b).leastExtent rest
        leastFrom (pos + 1 + extent.skip) (pending - 1 + extent.items) (rest.drop extent.skip)
termination_by rest.length
decreasing_by
  simp only [List.length_drop, List.length_cons]
  omega

/-- **The length of the shortest value that starts with the bytes.** -/
def leastLength (buffer : Bytes) : Nat := leastFrom 0 1 buffer

/-- Where nothing has arrived, every outstanding value takes one byte. -/
theorem leastFrom_nil (pos pending : Nat) : leastFrom pos pending [] = pos + pending := by
  rw [leastFrom]
  split
  · next hzero => rw [hzero, Nat.add_zero]
  · rfl

theorem leastFrom_cons (outstanding : pending ≠ 0) :
    leastFrom pos pending (b :: rest) =
      leastFrom (pos + 1 + ((Lead.ofByte b).leastExtent rest).skip)
        (pending - 1 + ((Lead.ofByte b).leastExtent rest).items)
        (rest.drop ((Lead.ofByte b).leastExtent rest).skip) := by
  rw [leastFrom, if_neg outstanding]

/-- A scan that ends has found the extent of the first byte in front of it. -/
theorem exists_extent_of_scanFrom (outstanding : pending ≠ 0)
    (h : scanFrom limit pos pending (b :: rest) = .ok (some n)) :
    ∃ extent, (Lead.ofByte b).extent limit (pos + 1) rest = .ok (some extent) ∧
      scanFrom limit (pos + 1 + extent.skip) (pending - 1 + extent.items)
        (rest.drop extent.skip) = .ok (some n) := by
  cases hextent : (Lead.ofByte b).extent limit (pos + 1) rest with
  | error fault => cases (scanFrom_cons_of_fault outstanding hextent).symm.trans h
  | ok found =>
      cases found with
      | none =>
          rw [scanFrom, if_neg outstanding] at h
          simp only [hextent] at h
          cases h
      | some extent =>
          rw [scanFrom_cons_of_extent outstanding hextent] at h
          exact ⟨extent, rfl, (refused_or_eq_ok.1 h).2⟩

/-- The scan ends behind as many bytes as values are outstanding. -/
theorem add_le_of_scanFrom (h : scanFrom limit pos pending rest = .ok (some n)) :
    pos + pending ≤ n := by
  obtain ⟨pieces, back, hspells, -, rfl⟩ := exists_spelling_of_scanFrom h
  exact Nat.add_le_add_left hspells.le_length pos

/-- **No completion is shorter than the least length.** -/
theorem leastFrom_le_of_scanFrom {more : Bytes}
    (h : scanFrom limit pos pending (rest ++ more) = .ok (some n)) :
    leastFrom pos pending rest ≤ n := by
  fun_induction leastFrom pos pending rest with
  | case1 pos rest => exact (scanFrom_bounds h).1
  | case2 pos pending outstanding => exact add_le_of_scanFrom h
  | case3 pos pending outstanding b rest least ih =>
      rw [List.cons_append] at h
      obtain ⟨extent, hextent, hscan⟩ := exists_extent_of_scanFrom outstanding h
      have hfound := Lead.leastExtent_of_some hextent
      rcases Nat.lt_or_ge rest.length least.skip with hfew | harrived
      · have hless := (Lead.ofByte b).leastExtent_le_append rest more
        rw [hfound] at hless
        obtain ⟨hskip, hitems⟩ : least.skip ≤ extent.skip ∧ least.items ≤ extent.items := hless
        have hend := add_le_of_scanFrom hscan
        rw [List.drop_eq_nil_of_le (Nat.le_of_lt hfew), leastFrom_nil]
        omega
      · -- the extent has arrived, so more bytes do not change it
        rw [Lead.leastExtent_append_of_le harrived] at hfound
        subst hfound
        rw [List.drop_append_of_le_length harrived] at hscan
        exact ih hscan

/-- A zero is a value. -/
theorem spells_zeros (count : Nat) : Spells count (List.replicate count ⟨0, []⟩) := by
  induction count with
  | zero => exact .nil
  | succ count ih =>
      rw [List.replicate_succ]
      refine .cons ⟨rfl, rfl⟩ ?_
      rwa [Nat.zero_add]

theorem spelling_zeros (count : Nat) :
    spelling (List.replicate count ⟨0, []⟩) = List.replicate count 0 := by
  induction count with
  | zero => rfl
  | succ count ih => rw [List.replicate_succ, spelling_cons, ih, List.replicate_succ]; rfl

theorem firstReserved?_zeros (count : Nat) :
    firstReserved? (List.replicate count ⟨0, []⟩) = none := by
  induction count with
  | zero => rfl
  | succ count ih => rw [List.replicate_succ, firstReserved?, if_neg (by decide), ih]; rfl

/-- The scan passes a zero for each value outstanding. -/
theorem scanFrom_replicate (room : pos + pending ≤ limit) (enough : pending ≤ count) :
    scanFrom limit pos pending (List.replicate count 0) = .ok (some (pos + pending)) := by
  have hlength : (spelling (List.replicate pending ⟨0, []⟩)).length = pending := by
    rw [spelling_zeros, List.length_replicate]
  have hscan := @scanFrom_spelling _ _ limit pos (spells_zeros pending) (by rwa [hlength])
    (List.replicate (count - pending) 0)
  rwa [spelling_zeros, ← List.replicate_add, Nat.add_sub_cancel' enough, scanResult,
    firstReserved?_zeros, hlength] at hscan

/-- **Zeros complete what is waited for at its least length, if the limit allows for that.** -/
theorem scanFrom_zeros (h : scanFrom limit pos pending rest = .ok none)
    (room : leastFrom pos pending rest ≤ limit)
    (enough : leastFrom pos pending rest ≤ pos + rest.length + count) :
    scanFrom limit pos pending (rest ++ List.replicate count 0) =
      .ok (some (leastFrom pos pending rest)) := by
  fun_induction scanFrom limit pos pending rest with
  | case1 | case3 | case5 => cases h
  | case2 pos pending outstanding =>
      rw [leastFrom_nil] at room enough ⊢
      rw [List.length_nil] at enough
      exact scanFrom_replicate room (by omega)
  | case4 pos pending outstanding b rest hextent =>
      have hsane : Lead.ofByte b ≠ .reserved := fun hlead => by
        rw [hlead] at hextent
        cases hextent
      have hfew := Lead.extent_waits hextent
      have hend : leastFrom pos pending (b :: rest) =
          pos + 1 + ((Lead.ofByte b).leastExtent rest).skip +
            (pending - 1 + ((Lead.ofByte b).leastExtent rest).items) := by
        rw [leastFrom_cons outstanding, List.drop_eq_nil_of_le (Nat.le_of_lt hfew), leastFrom_nil]
      have hzeros := (Lead.ofByte b).leastExtent_append_zeros rest count
      rw [hend] at room enough ⊢
      rw [List.length_cons] at enough
      have hfound := @Lead.extent_of_arrived limit (pos + 1) (rest ++ List.replicate count 0) _ hsane
      rw [hzeros, List.length_append, List.length_replicate] at hfound
      rw [List.cons_append, scanFrom_cons_of_extent outstanding (hfound (by omega) (by omega)),
        if_neg (Nat.not_lt.2 room), List.drop_append, List.drop_eq_nil_of_le (Nat.le_of_lt hfew),
        List.nil_append, List.drop_replicate]
      exact scanFrom_replicate room (by omega)
  | case6 pos pending outstanding b rest extent hextent pos' pending' hlimit ih =>
      have hskip := Lead.extent_some hextent
      have hmore := Lead.extent_append_of_some hextent (List.replicate count 0)
      rw [leastFrom_cons outstanding, Lead.leastExtent_of_some hextent] at room enough ⊢
      rw [List.length_cons] at enough
      rw [List.cons_append, scanFrom_cons_of_extent outstanding hmore, if_neg hlimit,
        List.drop_append_of_le_length hskip]
      refine ih h room (Nat.le_trans enough ?_)
      change _ ≤ pos + 1 + extent.skip + (rest.drop extent.skip).length + count
      rw [List.length_drop]
      omega

/-! ### Values that can still be completed -/

/-- **What is waited for can be completed within the limit if and only if its least length is
within the limit.  Else the scan refuses it, whatever follows, once as many bytes have arrived as
the limit allows for.** -/
theorem frameLength_completable_iff {buffer : Bytes} (positive : 0 < limit)
    (waits : frameLength limit buffer = .ok none) :
    ((∃ more n, frameLength limit (buffer ++ more) = .ok (some n) ∧ n ≤ limit) ↔
      leastLength buffer ≤ limit) ∧
    (limit < leastLength buffer → ∀ more, limit ≤ (buffer ++ more).length →
      ∃ fault, frameLength limit (buffer ++ more) = .error fault) := by
  refine ⟨⟨?_, ?_⟩, ?_⟩
  · rintro ⟨more, n, hcomplete, hlimit⟩
    exact Nat.le_trans (leastFrom_le_of_scanFrom hcomplete) hlimit
  · intro hleast
    exact ⟨List.replicate limit 0, leastLength buffer,
      scanFrom_zeros waits hleast (Nat.le_trans hleast (Nat.le_add_left _ _)), hleast⟩
  · intro hover more hfull
    cases h : frameLength limit (buffer ++ more) with
    | error fault => exact ⟨fault, rfl⟩
    | ok found =>
        cases found with
        | none => exact absurd (length_lt_of_frameLength_none h positive) (Nat.not_lt.2 hfull)
        | some n =>
            have hleast : leastLength buffer ≤ n := leastFrom_le_of_scanFrom h
            have hlimit := frameLength_le_limit h
            omega

/-- A pair that starts with a byte of its own can be completed within four bytes.  Three are too
few for it, but the scan finds that only once the third is there. -/
theorem frameLength_completable_iff_pair :
    frameLength 4 [0x92, 0xcc] = .ok none ∧
      (∃ more n, frameLength 4 ([0x92, 0xcc] ++ more) = .ok (some n) ∧ n ≤ 4) ∧
      frameLength 3 [0x92, 0xcc] = .ok none ∧
      ∃ fault, frameLength 3 ([0x92, 0xcc] ++ [0x07]) = .error fault := by
  have hleast : leastLength [0x92, 0xcc] = 4 := by cbv
  have hfour : frameLength 4 [0x92, 0xcc] = .ok none := by cbv
  have hthree : frameLength 3 [0x92, 0xcc] = .ok none := by cbv
  exact ⟨hfour, (frameLength_completable_iff (by decide) hfour).1.2 (Nat.le_of_eq hleast), hthree,
    (frameLength_completable_iff (by decide) hthree).2 (by rw [hleast]; decide) [0x07] (by decide)⟩

/-- **A value that is waited for although no bytes complete it within the limit:** of the pair whose
first item is a number of one byte, the second item is not counted while the number is under way. -/
theorem frameLength_waits_in_vain :
    frameLength 3 [0x92, 0xcc] = .ok none ∧
      ¬∃ more n, frameLength 3 ([0x92, 0xcc] ++ more) = .ok (some n) ∧ n ≤ 3 := by
  refine ⟨by cbv, ?_⟩
  rintro ⟨more, n, hcomplete, hlimit⟩
  have hleast : leastLength [0x92, 0xcc] ≤ n := leastFrom_le_of_scanFrom hcomplete
  have hfour : leastLength [0x92, 0xcc] = 4 := by cbv
  omega

end MsgPack

/-! ### An unpacker that waits -/

namespace Unpacker

variable {unpacker : Unpacker} {message : Message}

/-- A pull waits only while less than the limit has arrived. -/
theorem buffered_lt_of_next_none (positive : 0 < unpacker.limit)
    (h : unpacker.next.1 = .ok none) : unpacker.buffered < unpacker.limit := by
  obtain ⟨-, hfront⟩ := frontMessage_of_next_none h
  rw [← length_buffer]
  exact MsgPack.length_lt_of_frameLength_none (frontMessage_eq_none_iff.1 hfront) positive

/-- A message is cut off the front of the buffer with its frame, which is within the limit. -/
theorem exists_size_of_next_some (h : unpacker.next.1 = .ok (some message)) :
    ∃ n, 1 ≤ n ∧ n ≤ unpacker.limit ∧ unpacker.next.2.buffer = unpacker.buffer.drop n ∧
      unpacker.buffered = n + unpacker.next.2.buffered := by
  obtain ⟨-, n, hfront, hafter⟩ := frontMessage_of_next_some h
  obtain ⟨hpos, hinside⟩ := frontMessage_bounds hfront
  have hlimit := MsgPack.frameLength_le_limit (frontMessage_eq_some_iff.1 hfront).1
  refine ⟨n, hpos, hlimit, by rw [hafter, buffer_advance], ?_⟩
  rw [← length_buffer, ← length_buffer, hafter, buffer_advance, List.length_drop]
  omega

/-- **Whatever was fed and pulled before, a pull waits only while less than the limit has arrived:
with as many bytes as the limit it gives a message or fails.  A message takes at least one byte and
at most the limit.** -/
theorem waits_below_limit {limit : Nat} (positive : 0 < limit) (events : List Event)
    (reached : ((fresh limit).run events).2 = unpacker) :
    (unpacker.next.1 = .ok none → unpacker.buffered < limit) ∧
      (limit ≤ unpacker.buffered →
        (∃ message, unpacker.next.1 = .ok (some message)) ∨
          ∃ error, unpacker.next.1 = .error error) ∧
      ∀ message, unpacker.next.1 = .ok (some message) →
        ∃ n, 1 ≤ n ∧ n ≤ limit ∧ unpacker.next.2.buffer = unpacker.buffer.drop n ∧
          unpacker.buffered = n + unpacker.next.2.buffered := by
  have hlimit : unpacker.limit = limit := reached ▸ limit_run (fresh limit) events
  subst hlimit
  refine ⟨buffered_lt_of_next_none positive, fun hfull => ?_, fun message =>
    exists_size_of_next_some⟩
  cases hnext : unpacker.next.1 with
  | error error => exact Or.inr ⟨error, rfl⟩
  | ok found =>
      cases found with
      | none => exact absurd (buffered_lt_of_next_none positive hnext) (Nat.not_lt.2 hfull)
      | some message => exact Or.inl ⟨message, rfl⟩

/-- With a limit of three bytes: a message of three bytes is taken, and the two bytes behind it,
which start another, are waited on. -/
theorem waits_below_limit_three :
    ((fresh 3).run [.feed [0x92, 0x05, 0x04, 0x92, 0x05]]).2.next.1 =
        .ok (some ⟨4, .commitClaim⟩) ∧
      (∃ n, 1 ≤ n ∧ n ≤ 3 ∧
        5 = n + ((fresh 3).run [.feed [0x92, 0x05, 0x04, 0x92, 0x05]]).2.next.2.buffered) ∧
      ((fresh 3).run [.feed [0x92, 0x05, 0x04, 0x92, 0x05], .pull]).2.next.1 = .ok none ∧
      ((fresh 3).run [.feed [0x92, 0x05, 0x04, 0x92, 0x05], .pull]).2.buffered < 3 := by
  have hmessage : ((fresh 3).run [.feed [0x92, 0x05, 0x04, 0x92, 0x05]]).2.next.1 =
      .ok (some ⟨4, .commitClaim⟩) := by decide +kernel
  have hwaits : ((fresh 3).run [.feed [0x92, 0x05, 0x04, 0x92, 0x05], .pull]).2.next.1 =
      .ok none := by decide +kernel
  have hthree : 0 < 3 := by decide
  obtain ⟨n, hpos, hlimit, -, hbuffered⟩ := (waits_below_limit hthree _ rfl).2.2 _ hmessage
  exact ⟨hmessage, ⟨n, hpos, hlimit, hbuffered⟩, hwaits,
    (waits_below_limit hthree _ rfl).1 hwaits⟩

end Unpacker

end StakeLedger
