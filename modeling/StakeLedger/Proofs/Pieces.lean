/-
**The pieces of a value.**

The bytes of values are a sequence of pieces: a first byte, then the size field and the data that
belong to it alone.  A container announces how many values follow its piece, and these are spelled
by pieces in their turn, so that counting the values still outstanding tells where the pieces of the
first value end.  This grammar knows neither a limit nor a budget; the scan of a buffer follows it
as far as the limit allows.

Main definitions:

* `StakeLedger.MsgPack.Lead.Takes` — what belongs to a first byte, and what it announces;
* `StakeLedger.MsgPack.Piece`, `StakeLedger.MsgPack.Spells` — **pieces, and the sequences of them
  that spell a number of values**;
* `StakeLedger.MsgPack.firstReserved?` — where the reserved byte first stands as a first byte.

Main results:

* `StakeLedger.MsgPack.Spells.append`, `StakeLedger.MsgPack.Spells.split` — spellings one after the
  other;
* `StakeLedger.MsgPack.scanFrom_spelling`, `StakeLedger.MsgPack.exists_spelling_of_scanFrom` — the
  scan passes what is spelled, up to the first reserved byte, and nothing else.
-/
import StakeLedger.Proofs.Frames
import StakeLedger.Proofs.Reading

set_option autoImplicit false

namespace StakeLedger.MsgPack

open Results

/-! ### The grammar -/

/-- The bytes that belong to a first byte alone, and how many further values it announces. -/
def Lead.Takes (lead : Lead) (data : Bytes) (items : Nat) : Prop :=
  match lead with
  | .nil | .reserved | .bool _ | .small _ => data.length = 0 ∧ items = 0
  | .unsigned width | .signed width => data.length = width ∧ items = 0
  | .float32 => data.length = 4 ∧ items = 0
  | .float64 => data.length = 8 ∧ items = 0
  | .str size | .bin size =>
      ∃ field body, data = field ++ body ∧ size.Takes field body.length ∧ items = 0
  | .ext size =>
      ∃ field type body, data = field ++ type :: body ∧ size.Takes field body.length ∧ items = 0
  | .array size => size.Takes data items
  | .map size => ∃ entries, size.Takes data entries ∧ items = entries * 2

/-- A first byte with the bytes that belong to it alone. -/
structure Piece where
  lead : UInt8
  data : Bytes
  deriving DecidableEq, Repr

/-- The bytes of a piece. -/
def Piece.bytes (piece : Piece) : Bytes := piece.lead :: piece.data

/-- The bytes of pieces. -/
def spelling (pieces : List Piece) : Bytes := pieces.flatMap Piece.bytes

/-- **Pieces that spell `count` values, one after the other.** -/
inductive Spells : Nat → List Piece → Prop
  | nil : Spells 0 []
  | cons {count items : Nat} {piece : Piece} {rest : List Piece}
      (takes : (Lead.ofByte piece.lead).Takes piece.data items)
      (spells : Spells (items + count) rest) : Spells (count + 1) (piece :: rest)

/-- The reserved first byte. -/
def reservedLead : UInt8 := 0xc1

/-- The offset of the first piece that starts with the reserved byte. -/
def firstReserved? : List Piece → Option Nat
  | [] => none
  | piece :: rest =>
      if piece.lead = reservedLead then some 0
      else (firstReserved? rest).map fun offset => 1 + piece.data.length + offset

@[simp] theorem spelling_nil : spelling [] = [] := rfl

@[simp] theorem spelling_cons (piece : Piece) (rest : List Piece) :
    spelling (piece :: rest) = piece.lead :: (piece.data ++ spelling rest) := rfl

@[simp] theorem spelling_append (front back : List Piece) :
    spelling (front ++ back) = spelling front ++ spelling back :=
  List.flatMap_append

/-! ### Spellings one after the other -/

variable {count : Nat} {pieces : List Piece}

/-- Every value takes a byte at least. -/
theorem Spells.le_length (h : Spells count pieces) : count ≤ (spelling pieces).length := by
  induction h with
  | nil => exact Nat.le_refl 0
  | cons _ _ ih =>
      rw [spelling_cons, List.length_cons, List.length_append]
      omega

theorem Spells.append {more : Nat} {back : List Piece} (h : Spells count pieces)
    (hback : Spells more back) : Spells (count + more) (pieces ++ back) := by
  induction h with
  | nil => rwa [Nat.zero_add]
  | @cons count items piece rest takes _ ih =>
      rw [Nat.add_right_comm]
      refine .cons takes ?_
      rwa [← Nat.add_assoc]

/-- What spells several values starts with what spells the first of them. -/
theorem Spells.split {front back : Nat} (h : Spells (front + back) pieces) :
    ∃ first second, pieces = first ++ second ∧ Spells front first ∧ Spells back second := by
  generalize hcount : front + back = count at h
  -- the values that a container announces belong to the first part, as the container does
  induction h generalizing front with
  | nil =>
      obtain ⟨rfl, rfl⟩ := Nat.add_eq_zero_iff.1 hcount
      exact ⟨[], [], rfl, .nil, .nil⟩
  | @cons count items piece rest takes spells ih =>
      cases front with
      | zero =>
          rw [Nat.zero_add] at hcount
          exact ⟨[], piece :: rest, rfl, .nil, hcount ▸ .cons takes spells⟩
      | succ front =>
          obtain ⟨first, second, rfl, hfirst, hsecond⟩ := @ih (items + front) (by omega)
          exact ⟨piece :: first, second, rfl, .cons takes hfirst, hsecond⟩

/-- What spells one value more than others starts with a piece. -/
theorem Spells.exists_cons (h : Spells (count + 1) pieces) :
    ∃ piece rest items, pieces = piece :: rest ∧
      (Lead.ofByte piece.lead).Takes piece.data items ∧ Spells (items + count) rest := by
  cases h with
  | cons takes spells => exact ⟨_, _, _, rfl, takes, spells⟩

/-! ### The extent that a first byte announces -/

variable {limit pos n items : Nat} {data rest : Bytes} {extent : Extent}

theorem fixedExtent_eq_some_iff :
    fixedExtent limit pos rest n = .ok (some extent) ↔
      pos + n ≤ limit ∧ n ≤ rest.length ∧ extent = { skip := n, items := 0 } := by
  rw [fixedExtent, announced_eq_some_iff]
  constructor
  · rintro ⟨field, hpassed, rfl⟩
    obtain ⟨hlimit, hrest, -⟩ := passBytes_eq_some_iff.1 hpassed
    exact ⟨hlimit, hrest, rfl⟩
  · rintro ⟨hlimit, hrest, rfl⟩
    exact ⟨rest.take n, passBytes_eq_some_iff.2 ⟨hlimit, hrest, rfl⟩, rfl⟩

theorem countedExtent_of_takes {size : Size} {entries : Nat} (h : size.Takes data entries)
    (room : pos + data.length ≤ limit) (more : Bytes) (perEntry : Nat) :
    countedExtent limit pos (data ++ more) size perEntry =
      .ok (some { skip := data.length, items := entries * perEntry }) := by
  cases size with
  | inline size =>
      obtain ⟨rfl, rfl⟩ := h
      rfl
  | field width =>
      obtain ⟨rfl, rfl⟩ := h
      refine announced_eq_some_iff.2 ⟨data, ?_, rfl⟩
      refine passBytes_eq_some_iff.2 ⟨room, ?_, List.take_left⟩
      rw [List.length_append]
      omega

theorem takes_of_countedExtent {size : Size} {perEntry : Nat}
    (h : countedExtent limit pos rest size perEntry = .ok (some extent)) :
    ∃ entries, size.Takes (rest.take extent.skip) entries ∧ extent.items = entries * perEntry := by
  cases size with
  | inline size =>
      cases h
      exact ⟨size, ⟨List.take_zero, rfl⟩, rfl⟩
  | field width =>
      obtain ⟨field, hpassed, rfl⟩ := announced_eq_some_iff.1 h
      obtain ⟨-, hwidth, rfl⟩ := passBytes_eq_some_iff.1 hpassed
      exact ⟨Bytes.toNat (rest.take width), ⟨List.length_take_of_le hwidth, rfl⟩, rfl⟩

theorem sizedExtent_of_takes {size : Size} {extra : Nat} {field body : Bytes}
    (h : size.Takes field n) (length : body.length = n + extra)
    (room : pos + (field ++ body).length ≤ limit) (more : Bytes) :
    sizedExtent limit pos (field ++ body ++ more) size extra =
      .ok (some { skip := (field ++ body).length, items := 0 }) := by
  rw [List.length_append] at room
  rw [List.length_append]
  cases size with
  | inline size =>
      obtain ⟨rfl, rfl⟩ := h
      refine fixedExtent_eq_some_iff.2 ⟨by simp only [List.length_nil] at room; omega, ?_, ?_⟩
      · simp only [List.nil_append, List.length_append]
        omega
      · rw [List.length_nil, Nat.zero_add, length]
  | field width =>
      obtain ⟨rfl, rfl⟩ := h
      have hwidth : passBytes limit pos field.length (field ++ body ++ more) = .ok (some field) := by
        refine passBytes_eq_some_iff.2 ⟨by omega, ?_, ?_⟩
        · simp only [List.length_append]
          omega
        · rw [List.append_assoc, List.take_left]
      refine bind_eq_ok.2 ⟨some field, hwidth, ?_⟩
      refine announced_eq_some_iff.2 ⟨body, ?_, by rw [length]⟩
      refine passBytes_eq_some_iff.2 ⟨by omega, ?_, ?_⟩
      · rw [List.append_assoc, List.drop_left, List.length_append]
        omega
      · rw [List.append_assoc, List.drop_left, ← length, List.take_left]

theorem takes_of_sizedExtent {size : Size} {extra : Nat}
    (h : sizedExtent limit pos rest size extra = .ok (some extent)) :
    ∃ field body k, rest.take extent.skip = field ++ body ∧ size.Takes field k ∧
      body.length = k + extra ∧ extent.items = 0 := by
  cases size with
  | inline size =>
      obtain ⟨-, hrest, rfl⟩ := fixedExtent_eq_some_iff.1 h
      exact ⟨[], rest.take (size + extra), size, rfl, ⟨rfl, rfl⟩, List.length_take_of_le hrest, rfl⟩
  | field width =>
      obtain ⟨maybe, hwidth, h⟩ := bind_eq_ok.1 h
      cases maybe with
      | none => cases h
      | some field =>
          obtain ⟨body, hbody, rfl⟩ := announced_eq_some_iff.1 h
          obtain ⟨-, hlength, rfl⟩ := passBytes_eq_some_iff.1 hwidth
          obtain ⟨-, hinside, rfl⟩ := passBytes_eq_some_iff.1 hbody
          exact ⟨rest.take width, (rest.drop width).take (Bytes.toNat (rest.take width) + extra),
            Bytes.toNat (rest.take width), List.take_add, ⟨List.length_take_of_le hlength, rfl⟩,
            List.length_take_of_le hinside, rfl⟩

theorem fixedExtent_of_length (length : data.length = n) (room : pos + data.length ≤ limit)
    (more : Bytes) :
    fixedExtent limit pos (data ++ more) n =
      .ok (some { skip := data.length, items := 0 }) := by
  refine fixedExtent_eq_some_iff.2 ⟨by omega, ?_, by rw [length]⟩
  rw [List.length_append]
  omega

/-- Where the limit allows for what belongs to a first byte, the scan finds its extent. -/
theorem Lead.extent_of_takes {lead : Lead} (h : lead.Takes data items) (sane : lead ≠ .reserved)
    (room : pos + data.length ≤ limit) (more : Bytes) :
    lead.extent limit pos (data ++ more) = .ok (some { skip := data.length, items }) := by
  cases lead with
  | reserved => exact absurd rfl sane
  | nil | bool _ | small _ | unsigned _ | signed _ | float32 | float64 =>
      obtain ⟨hlength, rfl⟩ := h
      exact fixedExtent_of_length hlength room more
  | str size | bin size =>
      obtain ⟨field, body, rfl, hsize, rfl⟩ := h
      exact sizedExtent_of_takes hsize rfl room more
  | ext size =>
      obtain ⟨field, type, body, rfl, hsize, rfl⟩ := h
      exact sizedExtent_of_takes hsize rfl room more
  | array size =>
      have hextent := countedExtent_of_takes h room more 1
      rwa [Nat.mul_one] at hextent
  | map size =>
      obtain ⟨entries, hsize, rfl⟩ := h
      exact countedExtent_of_takes hsize room more 2

/-- The scan finds the extent of what belongs to a first byte only. -/
theorem Lead.takes_of_extent {lead : Lead} (h : lead.extent limit pos rest = .ok (some extent)) :
    lead.Takes (rest.take extent.skip) extent.items := by
  cases lead with
  | reserved => cases h
  | nil | bool _ | small _ | unsigned _ | signed _ | float32 | float64 =>
      obtain ⟨-, hlength, rfl⟩ := fixedExtent_eq_some_iff.1 h
      exact ⟨List.length_take_of_le hlength, rfl⟩
  | str size | bin size =>
      obtain ⟨field, body, k, hdata, hsize, hlength, hitems⟩ := takes_of_sizedExtent h
      rw [Nat.add_zero] at hlength
      exact ⟨field, body, hdata, hlength ▸ hsize, hitems⟩
  | ext size =>
      obtain ⟨field, body, k, hdata, hsize, hlength, hitems⟩ := takes_of_sizedExtent h
      -- the type byte is the one byte more
      obtain ⟨type, data, rfl⟩ := List.exists_cons_of_length_eq_add_one hlength
      rw [List.length_cons, Nat.add_right_cancel_iff] at hlength
      exact ⟨field, type, data, hdata, hlength ▸ hsize, hitems⟩
  | array size =>
      obtain ⟨entries, hsize, hitems⟩ := takes_of_countedExtent h
      rw [Nat.mul_one] at hitems
      exact hitems ▸ hsize
  | map size => exact takes_of_countedExtent h

/-! ### The scan of a spelling -/

/-- What the scan of pieces from `pos` on finds: where they end, or the first reserved byte. -/
def scanResult (pos : Nat) (pieces : List Piece) : Except FrameFault (Option Nat) :=
  match firstReserved? pieces with
  | none => .ok (some (pos + (spelling pieces).length))
  | some offset => .error (.reservedLead (pos + offset))

theorem scanResult_cons_of_reserved {piece : Piece} (h : piece.lead = reservedLead) (pos : Nat)
    (rest : List Piece) : scanResult pos (piece :: rest) = .error (.reservedLead pos) := by
  rw [scanResult, firstReserved?, if_pos h]
  rfl

theorem scanResult_cons {piece : Piece} (h : piece.lead ≠ reservedLead) (pos : Nat)
    (rest : List Piece) :
    scanResult pos (piece :: rest) = scanResult (pos + 1 + piece.data.length) rest := by
  rw [scanResult, scanResult, firstReserved?, if_neg h, spelling_cons, List.length_cons,
    List.length_append]
  cases firstReserved? rest with
  | none =>
      simp only [Option.map_none]
      congr 2
      omega
  | some offset =>
      simp only [Option.map_some]
      congr 2
      omega

/-- **The scan passes what spells the outstanding values, whatever follows it, or stops at the first
reserved byte.** -/
theorem scanFrom_spelling (h : Spells count pieces)
    (room : pos + (spelling pieces).length ≤ limit) (more : Bytes) :
    scanFrom limit pos count (spelling pieces ++ more) = scanResult pos pieces := by
  induction h generalizing pos with
  | nil =>
      rw [scanFrom.eq_def, if_pos rfl]
      rfl
  | @cons count items piece rest takes spells ih =>
      rw [spelling_cons, List.length_cons, List.length_append] at room
      rw [spelling_cons, List.cons_append, List.append_assoc]
      by_cases hreserved : piece.lead = reservedLead
      · rw [scanResult_cons_of_reserved hreserved]
        refine scanFrom_cons_of_fault (Nat.succ_ne_zero count) ?_
        rw [hreserved]
        rfl
      · have hsane : Lead.ofByte piece.lead ≠ .reserved :=
          fun hlead => hreserved ((Lead.ofByte_eq_reserved_iff _).1 hlead)
        have hextent := @Lead.extent_of_takes limit (pos + 1) _ _ _ takes hsane (by omega)
          (spelling rest ++ more)
        -- every outstanding value takes a byte, so the limit allows for their number
        have hcount := spells.le_length
        have hlimit : ¬ limit < pos + 1 + piece.data.length + (count + 1 - 1 + items) := by omega
        have hpending : count + 1 - 1 + items = items + count := by omega
        have hrest := @ih (pos + 1 + piece.data.length) (by omega)
        rw [scanFrom_cons_of_extent (Nat.succ_ne_zero count) hextent, if_neg hlimit,
          List.drop_left, scanResult_cons hreserved]
        change scanFrom limit (pos + 1 + piece.data.length) (count + 1 - 1 + items) _ = _
        rw [hpending, hrest]

/-- **Where the scan ends, it has passed what spells the outstanding values.** -/
theorem exists_spelling_of_scanFrom (h : scanFrom limit pos count rest = .ok (some n)) :
    ∃ pieces back, Spells count pieces ∧ rest = spelling pieces ++ back ∧
      n = pos + (spelling pieces).length := by
  fun_induction scanFrom limit pos count rest with
  | case1 pos rest =>
      cases h
      exact ⟨[], rest, .nil, rfl, rfl⟩
  | case2 | case3 | case4 | case5 => cases h
  | case6 pos pending outstanding b rest extent hextent pos' pending' _ ih =>
      obtain ⟨pieces, back, spells, hrest, rfl⟩ := ih h
      have hskip := Lead.extent_some hextent
      have htakes := Lead.takes_of_extent hextent
      obtain ⟨count, rfl⟩ := Nat.exists_eq_succ_of_ne_zero outstanding
      have hcount : pending' = extent.items + count := by
        change count + 1 - 1 + extent.items = _
        omega
      refine ⟨⟨b, rest.take extent.skip⟩ :: pieces, back, .cons htakes (hcount ▸ spells), ?_, ?_⟩
      · rw [spelling_cons, List.cons_append, List.append_assoc, ← hrest, List.take_append_drop]
      · rw [spelling_cons, List.length_cons, List.length_append, List.length_take_of_le hskip]
        change pos + 1 + extent.skip + _ = _
        omega

end StakeLedger.MsgPack
