/-
**What names an address.**

The texts that name an address are the letters of its kind with the forty digits of its body behind
them, each digit in either case, and no others; the byte strings that name it are the byte of its
kind with the twenty bytes of its body behind it, and no others.  So an address has one name in
bytes, and one in text once the digits are written in lower case.

Main definitions:

* `StakeLedger.Hex.IsDigit` — the digits of either case;
* `StakeLedger.Address.Spells` — **letters and digits that make up the text of some address**.

Main results:

* `StakeLedger.Hex.decode_eq_ok_iff` — what is read is what was written, up to the case of digits;
* `StakeLedger.Hex.exists_bytes` — an even number of digits spells bytes;
* `StakeLedger.Address.ofText_eq_ok_iff` — the texts that name a given address;
* `StakeLedger.Address.named_uniquely` — **text and bytes name addresses uniquely**.
-/
import StakeLedger.Proofs.Fields
import StakeLedger.Proofs.Octets

set_option autoImplicit false

namespace StakeLedger

open Results

/-! ### Digits -/

namespace Hex

/-- A digit, in lower or upper case. -/
def IsDigit (c : Char) : Prop :=
  ('0' ≤ c ∧ c ≤ '9') ∨ ('a' ≤ c ∧ c ≤ 'f') ∨ ('A' ≤ c ∧ c ≤ 'F')

instance (c : Char) : Decidable (IsDigit c) := by
  unfold IsDigit
  infer_instance

variable {c : Char} {n : Nat} {chars : List Char} {bytes : Bytes}

/-- What holds of each of the narrow characters. -/
theorem of_narrow {P : Char → Prop} (all : ∀ k : Fin 0x80, P (Char.ofNat k))
    (h : c.toNat < 0x80) : P c := by
  rw [← Char.ofNat_toNat c]
  exact all ⟨c.toNat, h⟩

/-- Wide characters have one case. -/
theorem toLower_of_wide (h : 0x80 ≤ c.toNat) : c.toLower = c := by
  refine dif_neg ?_
  rintro ⟨-, hle⟩
  have hbound : c.toNat ≤ 'Z'.toNat := UInt32.le_iff_toNat_le.1 hle
  have hlast : 'Z'.toNat = 90 := rfl
  omega

/-- The case of a character makes no difference to its value. -/
theorem value?_toLower (c : Char) : value? c.toLower = value? c := by
  rcases Nat.lt_or_ge c.toNat 0x80 with hc | hc
  · exact of_narrow (P := fun c => value? c.toLower = value? c) (by decide +kernel) hc
  · rw [toLower_of_wide hc]

/-- The value of a digit tells how it is written in lower case. -/
theorem value?_eq_some_iff : value? c = some n ↔ n < 16 ∧ c.toLower = digit n := by
  constructor
  · intro h
    rcases Nat.lt_or_ge c.toNat 0x80 with hc | hc
    · exact of_narrow (P := fun c => ∀ n ∈ value? c, n < 16 ∧ c.toLower = digit n)
        (by decide +kernel) hc n h
    · rw [value?_of_wide hc] at h
      cases h
  · rintro ⟨hn, hlower⟩
    rw [← value?_toLower, hlower]
    exact (value?_digit hn).1

/-- A character has a value exactly if it is a digit. -/
theorem isSome_value?_iff : (value? c).isSome ↔ IsDigit c := by
  rcases Nat.lt_or_ge c.toNat 0x80 with hc | hc
  · exact of_narrow (P := fun c => (value? c).isSome ↔ IsDigit c) (by decide +kernel) hc
  · have hbound : ∀ d : Char, d.toNat < 0x80 → ¬ c ≤ d := by
      intro d hd hle
      have hnumber : c.toNat ≤ d.toNat := UInt32.le_iff_toNat_le.1 hle
      omega
    have hnone : ¬ IsDigit c := by
      rintro (⟨-, h⟩ | ⟨-, h⟩ | ⟨-, h⟩) <;> exact hbound _ (by decide) h
    simp [value?_of_wide hc, hnone]

/-- The case of a character makes no difference to its size. -/
theorem utf8Size_toLower (c : Char) : c.toLower.utf8Size = c.utf8Size := by
  rcases Nat.lt_or_ge c.toNat 0x80 with hc | hc
  · exact of_narrow (P := fun c => c.toLower.utf8Size = c.utf8Size) (by decide +kernel) hc
  · rw [toLower_of_wide hc]

/-! ### Sequences of digits -/

theorem valueAt_eq_ok_iff {position : Nat} : valueAt position c = .ok n ↔ value? c = some n := by
  rw [valueAt]
  split
  · next hvalue => simp [hvalue]
  · next hvalue => simp [hvalue]

/-- Two characters are the digits of a byte exactly if their values are its halves. -/
theorem pair_eq_iff {hi lo : Char} {b : UInt8} :
    pair b = [hi.toLower, lo.toLower] ↔
      ∃ h l, value? hi = some h ∧ value? lo = some l ∧ UInt8.ofNat (16 * h + l) = b := by
  have hb : b.toNat < 256 := b.toNat_lt
  constructor
  · intro hpair
    obtain ⟨hhi, hlo⟩ : digit (b.toNat / 16) = hi.toLower ∧ digit (b.toNat % 16) = lo.toLower := by
      simpa [pair] using hpair
    refine ⟨b.toNat / 16, b.toNat % 16, value?_eq_some_iff.2 ⟨by omega, hhi.symm⟩,
      value?_eq_some_iff.2 ⟨by omega, hlo.symm⟩, ?_⟩
    rw [Nat.div_add_mod, UInt8.ofNat_toNat]
  · rintro ⟨h, l, hhi, hlo, rfl⟩
    obtain ⟨hh, hhi⟩ := value?_eq_some_iff.1 hhi
    obtain ⟨hl, hlo⟩ := value?_eq_some_iff.1 hlo
    have hnumber : (UInt8.ofNat (16 * h + l)).toNat = 16 * h + l := by
      rw [UInt8.toNat_ofNat']
      omega
    have hhigh : (16 * h + l) / 16 = h := by omega
    have hlow : (16 * h + l) % 16 = l := by omega
    rw [pair, hnumber, hhigh, hlow, hhi, hlo]

/-- What is read two digits at a time is what was written, up to the case of digits. -/
theorem decodePairs_eq_ok_iff {position : Nat} :
    decodePairs position chars = .ok bytes ↔ chars.map Char.toLower = digits bytes := by
  fun_induction decodePairs position chars generalizing bytes with
  | case1 =>
      cases bytes with
      | nil => simp
      | cons b bytes => simp [pair]
  | case2 position c =>
      constructor
      · intro h
        obtain ⟨_, -, hthrow⟩ := bind_eq_ok.1 h
        cases hthrow
      · intro h
        have hlength := congrArg List.length h
        rw [length_digits, List.length_map, List.length_singleton] at hlength
        omega
  | case3 position hi lo rest ih =>
      constructor
      · intro h
        obtain ⟨high, hhigh, h⟩ := bind_eq_ok.1 h
        obtain ⟨low, hlow, h⟩ := bind_eq_ok.1 h
        obtain ⟨others, hothers, h⟩ := bind_eq_ok.1 h
        cases h
        rw [digits_cons, ← ih.1 hothers, pair_eq_iff.2
          ⟨high, low, valueAt_eq_ok_iff.1 hhigh, valueAt_eq_ok_iff.1 hlow, rfl⟩]
        rfl
      · intro h
        cases bytes with
        | nil => cases h
        | cons b others =>
            have hdigits : [hi.toLower, lo.toLower] ++ rest.map Char.toLower =
                [digit (b.toNat / 16), digit (b.toNat % 16)] ++ digits others := h
            obtain ⟨hpair, hothers⟩ := List.append_inj hdigits rfl
            obtain ⟨high, low, hhigh, hlow, rfl⟩ := pair_eq_iff.1 hpair.symm
            rw [valueAt_eq_ok_iff.2 hhigh, ok_bind, valueAt_eq_ok_iff.2 hlow, ok_bind,
              ih.2 hothers, ok_bind]
            rfl

theorem utf8Length_map_toLower (chars : List Char) :
    utf8Length (chars.map Char.toLower) = utf8Length chars := by
  simp only [utf8Length, List.foldr_map, utf8Size_toLower]

/-- **What is read is what was written, up to the case of digits.** -/
theorem decode_eq_ok_iff : decode chars = .ok bytes ↔ chars.map Char.toLower = digits bytes := by
  rw [decode, refused_or_eq_ok, decodePairs_eq_ok_iff]
  constructor
  · exact And.right
  · intro h
    refine ⟨?_, h⟩
    rw [← utf8Length_map_toLower, h, utf8Length_digits]
    omega

theorem exists_of_mem_digits {d : Char} (h : d ∈ digits bytes) : ∃ n < 16, d = digit n := by
  obtain ⟨b, -, hpair⟩ := List.mem_flatMap.1 h
  have hb : b.toNat < 256 := b.toNat_lt
  rcases List.mem_cons.1 hpair with rfl | hlow
  · exact ⟨b.toNat / 16, by omega, rfl⟩
  · exact ⟨b.toNat % 16, by omega, List.mem_singleton.1 hlow⟩

/-- What was written is written in digits, in whatever case it is read. -/
theorem isDigit_of_mem (h : chars.map Char.toLower = digits bytes) : ∀ c ∈ chars, IsDigit c := by
  intro c hc
  have hlower : c.toLower ∈ digits bytes := by
    rw [← h]
    exact List.mem_map_of_mem hc
  obtain ⟨n, hn, hdigit⟩ := exists_of_mem_digits hlower
  rw [← isSome_value?_iff, value?_eq_some_iff.2 ⟨hn, hdigit⟩]
  rfl

/-- An even number of digits spells bytes. -/
theorem exists_bytes (size : Nat) (hsize : chars.length = 2 * size)
    (hdigits : ∀ c ∈ chars, IsDigit c) :
    ∃ bytes, bytes.length = size ∧ chars.map Char.toLower = digits bytes := by
  induction size generalizing chars with
  | zero => exact ⟨[], rfl, by rw [List.eq_nil_of_length_eq_zero hsize]; rfl⟩
  | succ size ih =>
      rcases chars with _ | ⟨hi, _ | ⟨lo, rest⟩⟩
      · simp at hsize
      · simp at hsize
        omega
      · have hrest : rest.length = 2 * size := by
          simp only [List.length_cons] at hsize
          omega
        simp only [List.forall_mem_cons] at hdigits
        obtain ⟨hhi, hlo, hothers⟩ := hdigits
        obtain ⟨others, hlength, hspelled⟩ := ih hrest hothers
        obtain ⟨high, hhigh⟩ := Option.isSome_iff_exists.1 (isSome_value?_iff.2 hhi)
        obtain ⟨low, hlow⟩ := Option.isSome_iff_exists.1 (isSome_value?_iff.2 hlo)
        refine ⟨UInt8.ofNat (16 * high + low) :: others, by rw [List.length_cons, hlength], ?_⟩
        rw [digits_cons, pair_eq_iff.2 ⟨high, low, hhigh, hlow, rfl⟩, ← hspelled]
        rfl

end Hex

/-! ### Addresses -/

namespace Address

/-- **The text is made up of the letters of a kind and forty digits of either case.** -/
structure Spells (text letters : String) (digits : List Char) : Prop where
  letters_eq : letters = "hx" ∨ letters = "cx"
  length_eq : digits.length = 40
  isDigit : ∀ c ∈ digits, Hex.IsDigit c
  text_eq : text = letters ++ String.ofList digits

variable {text letters : String} {digits : List Char} {a : Address}

theorem ofDigits_eq_ok_iff {kind : Kind} :
    ofDigits text kind digits = .ok a ↔
      a.kind = kind ∧ digits.map Char.toLower = Hex.digits a.body := by
  rw [← Hex.decode_eq_ok_iff, ofDigits]
  constructor
  · intro h
    cases hdecode : Hex.decode digits with
    | error error =>
        rw [hdecode] at h
        cases h
    | ok body =>
        simp only [hdecode] at h
        split at h
        · cases h
          exact ⟨rfl, rfl⟩
        · cases h
  · rintro ⟨rfl, hdecode⟩
    simp only [hdecode]
    exact dif_pos a.size_body

/-- The texts that name a given address. -/
theorem ofText_eq_ok_iff : ofText text = .ok a ↔
    ∃ digits, text = a.kind.text ++ String.ofList digits ∧
      digits.map Char.toLower = Hex.digits a.body := by
  constructor
  · intro h
    rw [ofText] at h
    split at h
    · next digits htext =>
        obtain ⟨hkind, hdigits⟩ := ofDigits_eq_ok_iff.1 h
        refine ⟨digits, ?_, hdigits⟩
        rw [← String.toList_inj, htext, hkind]
        simp [Kind.text]
    · next digits htext =>
        obtain ⟨hkind, hdigits⟩ := ofDigits_eq_ok_iff.1 h
        refine ⟨digits, ?_, hdigits⟩
        rw [← String.toList_inj, htext, hkind]
        simp [Kind.text]
    · cases h
  · rintro ⟨digits, rfl, hdigits⟩
    cases hkind : a.kind with
    | user =>
        have htext : (Kind.user.text ++ String.ofList digits).toList = 'h' :: 'x' :: digits := by
          simp [Kind.text]
        rw [ofText, htext]
        exact ofDigits_eq_ok_iff.2 ⟨hkind, hdigits⟩
    | contract =>
        have htext : (Kind.contract.text ++ String.ofList digits).toList =
            'c' :: 'x' :: digits := by
          simp [Kind.text]
        rw [ofText, htext]
        exact ofDigits_eq_ok_iff.2 ⟨hkind, hdigits⟩

/-- The letters of a kind and forty digits name the address that is written with the same digits in
lower case. -/
theorem Spells.exists_address (h : Spells text letters digits) :
    ∃ a, ofText text = .ok a ∧ a.text = letters ++ String.ofList (digits.map Char.toLower) := by
  obtain ⟨hletters, hlength, hdigits, rfl⟩ := h
  obtain ⟨body, hbody, hspelled⟩ := Hex.exists_bytes 20 hlength hdigits
  obtain ⟨kind, rfl⟩ : ∃ kind : Kind, kind.text = letters := by
    rcases hletters with rfl | rfl
    · exact ⟨.user, rfl⟩
    · exact ⟨.contract, rfl⟩
  refine ⟨⟨kind, body, hbody⟩, ofText_eq_ok_iff.2 ⟨digits, rfl, hspelled⟩, ?_⟩
  rw [text, Hex.encode, hspelled]

/-- A text that names an address is made up of letters and digits. -/
theorem exists_spells (h : ofText text = .ok a) : ∃ letters digits, Spells text letters digits := by
  obtain ⟨digits, htext, hspelled⟩ := ofText_eq_ok_iff.1 h
  refine ⟨a.kind.text, digits, ?_, ?_, Hex.isDigit_of_mem hspelled, htext⟩
  · cases a.kind with
    | user => exact Or.inl rfl
    | contract => exact Or.inr rfl
  · have hlength := congrArg List.length hspelled
    rwa [List.length_map, Hex.length_digits, a.size_body] at hlength

/-- The byte strings that name an address are told by their length and their first byte. -/
theorem exists_ofBytes_iff {bytes : Bytes} : (∃ a, ofBytes bytes = .ok a) ↔
    bytes.length = 21 ∧ (bytes.head? = some 0 ∨ bytes.head? = some 1) := by
  constructor
  · rintro ⟨a, ha⟩
    obtain rfl := ofBytes_eq_ok_iff.1 ha
    refine ⟨length_toBytes a, ?_⟩
    rw [toBytes]
    cases a.kind with
    | user => exact Or.inl rfl
    | contract => exact Or.inr rfl
  · rintro ⟨hlength, hfirst⟩
    cases bytes with
    | nil => cases hlength
    | cons b body =>
        have hbody : body.length = bodySize := Nat.succ.inj hlength
        obtain ⟨kind, rfl⟩ : ∃ kind : Kind, kind.toByte = b := by
          rcases hfirst with hfirst | hfirst
          · exact ⟨.user, (Option.some.inj hfirst).symm⟩
          · exact ⟨.contract, (Option.some.inj hfirst).symm⟩
        exact ⟨⟨kind, body, hbody⟩, ofBytes_eq_ok_iff.2 rfl⟩

/-- **Text and bytes name addresses uniquely.**  A text names an address exactly if it is made up of
the letters of a kind and forty digits of either case, and the address is then written as that text
with its digits in lower case; it makes no difference whether the text is read by characters or cut
and read by octets.  A byte string names an address exactly if it has twenty-one bytes of which the
first is zero or one, and the address is then written as that byte string. -/
theorem named_uniquely :
    (∀ text, ofOctets? text = some (ofText text)) ∧
    (∀ text, (∃ a, ofText text = .ok a) ↔ ∃ letters digits, Spells text letters digits) ∧
    (∀ text letters digits a, Spells text letters digits → ofText text = .ok a →
      a.text = letters ++ String.ofList (digits.map Char.toLower)) ∧
    (∀ a : Address, ofText a.text = .ok a) ∧
    (∀ bytes, (∃ a, ofBytes bytes = .ok a) ↔
      bytes.length = 21 ∧ (bytes.head? = some 0 ∨ bytes.head? = some 1)) ∧
    (∀ bytes a, ofBytes bytes = .ok a → a.toBytes = bytes) ∧
    ∀ a : Address, ofBytes a.toBytes = .ok a := by
  refine ⟨ofOctets?_eq, ?_, ?_, ofText_text, fun bytes => exists_ofBytes_iff, ?_, ofBytes_toBytes⟩
  · intro text
    constructor
    · rintro ⟨a, ha⟩
      exact exists_spells ha
    · rintro ⟨letters, digits, h⟩
      obtain ⟨a, ha, -⟩ := h.exists_address
      exact ⟨a, ha⟩
  · intro text letters digits a h ha
    obtain ⟨b, hb, hwritten⟩ := h.exists_address
    cases ha.symm.trans hb
    exact hwritten
  · intro bytes a ha
    exact (ofBytes_eq_ok_iff.1 ha).symm

/-- Digits of both cases. -/
def mixedDigits : List Char := "00ffABcdEF0123456789abcDEF0123456789aBCd".toList

/-- A text in mixed case names the contract that is written in lower case, and twenty-one bytes name
the contract that they are the bytes of. -/
theorem named_uniquely_mixedCase :
    Spells "cx00ffABcdEF0123456789abcDEF0123456789aBCd" "cx" mixedDigits ∧
      (∃ a, ofText "cx00ffABcdEF0123456789abcDEF0123456789aBCd" = .ok a ∧
        a.text = "cx00ffabcdef0123456789abcdef0123456789abcd") ∧
      ∃ a, ofBytes (1 :: List.replicate 20 0xab) = .ok a ∧
        a.toBytes = 1 :: List.replicate 20 0xab := by
  obtain ⟨-, hnames, hwritten, -, hbytes, hsame, -⟩ := named_uniquely
  have hall : mixedDigits.all (fun c => decide (Hex.IsDigit c)) = true := by decide
  have hdigits : ∀ c ∈ mixedDigits, Hex.IsDigit c := by
    intro c hc
    exact of_decide_eq_true (List.all_eq_true.1 hall c hc)
  have hspells : Spells "cx00ffABcdEF0123456789abcDEF0123456789aBCd" "cx" mixedDigits :=
    ⟨Or.inr rfl, by decide, hdigits, by decide⟩
  obtain ⟨a, ha⟩ := (hnames _).2 ⟨_, _, hspells⟩
  obtain ⟨b, hb⟩ := (hbytes (1 :: List.replicate 20 0xab)).2 ⟨rfl, Or.inr rfl⟩
  refine ⟨hspells, ⟨a, ha, ?_⟩, b, hb, hsame _ b hb⟩
  rw [hwritten _ _ _ a hspells ha]
  decide

/-- A wide character takes as many octets as two digits, and is found at its first octet. -/
example : ofText "hx00000000000000000000000000000000000000é" =
    .error (.malformedDigits (.invalidCharacter 0xc3 38)) := by cbv

end Address

end StakeLedger
