/-
**Reading an address by octets is reading it by characters.**

A character below `0x80` is its own octet, and every other character starts with an octet from
`0xc0` on, which is no letter and no digit.  The octets of a text therefore begin with the letters
of a kind exactly if its characters do, a cut behind these letters never goes through a character,
and the first octet that is no digit is the first octet of the first character that is none.

Main definitions:

* `StakeLedger.Bytes.ofChars` — the octets of a sequence of characters.

Main results:

* `StakeLedger.Hex.decodeOctets_ofChars` — the digits of a byte string, by octets;
* `StakeLedger.Bytes.front?_ofChars`, `StakeLedger.Bytes.back?_ofChars` — cuts behind two narrow
  characters;
* `StakeLedger.Address.ofOctets?_eq` — **the octets of a text name what its characters name**, and
  the text is never cut inside a character.
-/
import StakeLedger.Address.Octets

set_option autoImplicit false

namespace StakeLedger

/-! ### The octets of characters -/

namespace Bytes

/-- The octets of characters, one character after the other. -/
def ofChars (chars : List Char) : Bytes := chars.flatMap String.utf8EncodeChar

variable {c : Char} {chars : List Char}

@[simp] theorem ofChars_nil : ofChars [] = [] := rfl

@[simp] theorem ofChars_cons (c : Char) (chars : List Char) :
    ofChars (c :: chars) = String.utf8EncodeChar c ++ ofChars chars := rfl

theorem ofText_eq_ofChars (text : String) : ofText text = ofChars text.toList := by
  have h : (String.ofList text.toList).toByteArray.data.toList = ofChars text.toList := by
    rw [String.toByteArray_ofList, List.utf8Encode, List.toList_data_toByteArray]
    rfl
  rwa [String.ofList_toList] at h

theorem length_ofChars (chars : List Char) : (ofChars chars).length = Hex.utf8Length chars := by
  induction chars with
  | nil => rfl
  | cons c chars ih =>
      rw [ofChars_cons, List.length_append, String.length_utf8EncodeChar, ih]
      rfl

/-- The octets of a character: one, or a first one that tells how many continue it. -/
theorem utf8EncodeChar_eq (c : Char) : String.utf8EncodeChar c =
    if c.toNat ≤ 0x7f then [UInt8.ofNat c.toNat]
    else if c.toNat ≤ 0x7ff then
      [UInt8.ofNat (c.toNat / 64 % 32 + 192), UInt8.ofNat (c.toNat % 64 + 128)]
    else if c.toNat ≤ 0xffff then
      [UInt8.ofNat (c.toNat / 4096 % 16 + 224), UInt8.ofNat (c.toNat / 64 % 64 + 128),
        UInt8.ofNat (c.toNat % 64 + 128)]
    else
      [UInt8.ofNat (c.toNat / 262144 % 8 + 240), UInt8.ofNat (c.toNat / 4096 % 64 + 128),
        UInt8.ofNat (c.toNat / 64 % 64 + 128), UInt8.ofNat (c.toNat % 64 + 128)] := rfl

/-- A narrow character is its own octet. -/
theorem utf8EncodeChar_of_narrow (h : c.toNat < 0x80) :
    String.utf8EncodeChar c = [Hex.leadByte c] ∧ (Hex.leadByte c).toNat = c.toNat := by
  have hlead : Hex.leadByte c = UInt8.ofNat c.toNat := if_pos h
  rw [utf8EncodeChar_eq, if_pos (by omega), hlead, UInt8.toNat_ofNat']
  exact ⟨rfl, by omega⟩

/-- A wide character starts with an octet from `0xc0` on, and has more than one. -/
theorem utf8EncodeChar_of_wide (h : 0x80 ≤ c.toNat) :
    0xc0 ≤ (Hex.leadByte c).toNat ∧
      ∃ next rest, String.utf8EncodeChar c = Hex.leadByte c :: next :: rest := by
  have hvalid : c.toNat < 0x110000 := by
    have hchar := c.valid
    simp only [UInt32.isValidChar, Nat.isValidChar] at hchar
    change c.val.toNat < _
    omega
  rw [utf8EncodeChar_eq, if_neg (by omega)]
  unfold Hex.leadByte
  simp only [if_neg (Nat.not_lt.2 h)]
  by_cases htwo : c.toNat < 0x800
  · have hlead : c.toNat / 64 % 32 + 192 = 0xc0 + c.toNat / 64 := by omega
    rw [if_pos htwo, if_pos (by omega), hlead, UInt8.toNat_ofNat']
    exact ⟨by omega, _, _, rfl⟩
  by_cases hthree : c.toNat < 0x10000
  · have hlead : c.toNat / 4096 % 16 + 224 = 0xe0 + c.toNat / 4096 := by omega
    rw [if_neg htwo, if_pos hthree, if_neg (by omega), if_pos (by omega), hlead,
      UInt8.toNat_ofNat']
    exact ⟨by omega, _, _, rfl⟩
  · have hlead : c.toNat / 262144 % 8 + 240 = 0xf0 + c.toNat / 262144 := by omega
    rw [if_neg htwo, if_neg hthree, if_neg (by omega), if_neg (by omega), hlead,
      UInt8.toNat_ofNat']
    exact ⟨by omega, _, _, rfl⟩

end Bytes

/-! ### Digits -/

namespace Hex

open Bytes

variable {position : Nat} {c : Char} {chars : List Char}

/-- The first octet of a character is read as the character is. -/
theorem octetValue_leadByte (position : Nat) (c : Char) :
    octetValue position (leadByte c) = valueAt position c := by
  rcases Nat.lt_or_ge c.toNat 0x80 with hc | hc
  · have hlead := (utf8EncodeChar_of_narrow hc).2
    grind [octetValue, valueAt, value?]
  · have hlead := (utf8EncodeChar_of_wide hc).1
    grind [octetValue, valueAt, value?]

/-- Wide characters have no value. -/
theorem value?_of_wide (h : 0x80 ≤ c.toNat) : value? c = none := by
  grind [value?]

theorem valueAt_of_wide (h : 0x80 ≤ c.toNat) (position : Nat) :
    valueAt position c = .error (.invalidCharacter (leadByte c) position) := by
  rw [valueAt, value?_of_wide h]

/-- Digits are read alike by octets and by characters, two at a time. -/
theorem octetPairs_ofChars (even : (ofChars chars).length % 2 = 0) (position : Nat) :
    octetPairs position (ofChars chars) = decodePairs position chars := by
  fun_induction decodePairs position chars with
  | case1 => rfl
  | case2 position c =>
      -- one character alone takes an even number of octets only if it is wide
      rcases Nat.lt_or_ge c.toNat 0x80 with hc | hc
      · simp [(utf8EncodeChar_of_narrow hc).1] at even
      · obtain ⟨-, next, rest, hencoded⟩ := utf8EncodeChar_of_wide hc
        rw [ofChars_cons, hencoded, List.cons_append, List.cons_append, octetPairs,
          octetValue_leadByte, valueAt_of_wide hc]
        rfl
  | case3 position hi lo rest ih =>
      rcases Nat.lt_or_ge hi.toNat 0x80 with hhi | hhi
      · rw [ofChars_cons, (utf8EncodeChar_of_narrow hhi).1] at even ⊢
        rcases Nat.lt_or_ge lo.toNat 0x80 with hlo | hlo
        · rw [ofChars_cons, (utf8EncodeChar_of_narrow hlo).1] at even ⊢
          have hrest : (ofChars rest).length % 2 = 0 := by
            simp only [List.length_append, List.length_singleton] at even
            omega
          rw [List.singleton_append, List.singleton_append, octetPairs, octetValue_leadByte,
            octetValue_leadByte, ih hrest]
        · obtain ⟨-, next, more, hencoded⟩ := utf8EncodeChar_of_wide hlo
          rw [ofChars_cons, hencoded, List.singleton_append, List.cons_append, octetPairs,
            octetValue_leadByte, octetValue_leadByte, valueAt_of_wide hlo]
          rfl
      · obtain ⟨-, next, more, hencoded⟩ := utf8EncodeChar_of_wide hhi
        rw [ofChars_cons, hencoded, List.cons_append, List.cons_append, octetPairs,
          octetValue_leadByte, valueAt_of_wide hhi]
        rfl

/-- **The digits of a byte string, by octets.** -/
theorem decodeOctets_ofChars (chars : List Char) :
    decodeOctets (ofChars chars) = decode chars := by
  rw [decodeOctets, decode, length_ofChars]
  by_cases hodd : utf8Length chars % 2 = 1
  · rw [if_pos hodd, if_pos hodd]
  · rw [if_neg hodd, if_neg hodd]
    refine octetPairs_ofChars ?_ 0
    rw [length_ofChars]
    omega

end Hex

/-! ### Cuts -/

namespace Bytes

variable {chars : List Char} {x y : Char}

/-- A narrow octet in front comes from the narrow character of the same number. -/
theorem exists_of_ofChars_eq_cons (narrow : x.toNat < 0x80) {octets : Bytes}
    (h : ofChars chars = Hex.leadByte x :: octets) :
    ∃ others, chars = x :: others ∧ octets = ofChars others := by
  have hx := (utf8EncodeChar_of_narrow narrow).2
  cases chars with
  | nil => cases h
  | cons c others =>
      rw [ofChars_cons] at h
      rcases Nat.lt_or_ge c.toNat 0x80 with hc | hc
      · obtain ⟨hencoded, hlead⟩ := utf8EncodeChar_of_narrow hc
        rw [hencoded] at h
        obtain ⟨hsame, rfl⟩ := List.cons.inj h
        have hnumber : c.toNat = x.toNat := by rw [← hlead, hsame, hx]
        exact ⟨others, by rw [← Char.ofNat_toNat c, hnumber, Char.ofNat_toNat], rfl⟩
      · obtain ⟨hlead, next, more, hencoded⟩ := utf8EncodeChar_of_wide hc
        rw [hencoded] at h
        obtain ⟨hsame, -⟩ := List.cons.inj h
        rw [hsame] at hlead
        omega

/-- A text can be cut in front of characters. -/
theorem isBoundary_append (front : Bytes) (chars : List Char) :
    (front ++ ofChars chars).isBoundary front.length := by
  rw [isBoundary, List.getElem?_append_right (Nat.le_refl _), Nat.sub_self]
  cases chars with
  | nil => simp
  | cons c chars =>
      rcases Nat.lt_or_ge c.toNat 0x80 with hc | hc
      · obtain ⟨hencoded, hlead⟩ := utf8EncodeChar_of_narrow hc
        simp [hencoded, hlead, hc]
      · obtain ⟨hlead, next, more, hencoded⟩ := utf8EncodeChar_of_wide hc
        simp [hencoded, hlead]

theorem ofChars_two (hx : x.toNat < 0x80) (hy : y.toNat < 0x80) (rest : List Char) :
    ofChars (x :: y :: rest) = [Hex.leadByte x, Hex.leadByte y] ++ ofChars rest := by
  rw [ofChars_cons, ofChars_cons, (utf8EncodeChar_of_narrow hx).1,
    (utf8EncodeChar_of_narrow hy).1]
  rfl

/-- The octets in front are those of two narrow characters exactly if these stand in front. -/
theorem front?_ofChars (hx : x.toNat < 0x80) (hy : y.toNat < 0x80) :
    (ofChars chars).front? 2 = some [Hex.leadByte x, Hex.leadByte y] ↔
      ∃ rest, chars = x :: y :: rest := by
  constructor
  · intro h
    have htake : (ofChars chars).take 2 = [Hex.leadByte x, Hex.leadByte y] := by
      rw [front?] at h
      split at h
      · exact Option.some.inj h
      · cases h
    have hchars := List.take_append_drop 2 (ofChars chars)
    rw [htake] at hchars
    obtain ⟨others, rfl, hothers⟩ := exists_of_ofChars_eq_cons hx hchars.symm
    obtain ⟨rest, rfl, -⟩ := exists_of_ofChars_eq_cons hy hothers.symm
    exact ⟨rest, rfl⟩
  · rintro ⟨rest, rfl⟩
    rw [ofChars_two hx hy, front?]
    exact if_pos (isBoundary_append [Hex.leadByte x, Hex.leadByte y] rest)

/-- A text can be cut behind two narrow characters, and what is behind them are characters. -/
theorem back?_ofChars (hx : x.toNat < 0x80) (hy : y.toNat < 0x80) (rest : List Char) :
    (ofChars (x :: y :: rest)).back? 2 = some (ofChars rest) := by
  rw [ofChars_two hx hy, back?]
  exact if_pos (isBoundary_append [Hex.leadByte x, Hex.leadByte y] rest)

end Bytes

/-! ### Addresses -/

namespace Address

open Bytes

theorem ofDigits_eq_ofBody (text : String) (kind : Kind) (digits : List Char) :
    ofDigits text kind digits = ofBody text kind (Hex.decode digits) := by
  rw [ofDigits]
  cases Hex.decode digits with
  | error error => rfl
  | ok body => rfl

/-- The octets in front are the letters of a kind exactly if the characters are. -/
theorem kindOfOctets?_eq (chars : List Char) :
    Kind.ofOctets? ((ofChars chars).front? 2) =
      match chars with
      | 'h' :: 'x' :: _ => some .user
      | 'c' :: 'x' :: _ => some .contract
      | _ => none := by
  have huser := @front?_ofChars chars 'h' 'x' (by decide) (by decide)
  have hcontract := @front?_ofChars chars 'c' 'x' (by decide) (by decide)
  split
  · next rest =>
      rw [huser.2 ⟨rest, rfl⟩]
      rfl
  · next rest =>
      rw [hcontract.2 ⟨rest, rfl⟩]
      rfl
  · next hother hother' =>
      unfold Kind.ofOctets?
      split
      · next hfront =>
          obtain ⟨rest, rfl⟩ := huser.1 hfront
          exact absurd rfl (hother rest)
      · next hfront =>
          obtain ⟨rest, rfl⟩ := hcontract.1 hfront
          exact absurd rfl (hother' rest)
      · rfl

/-- The digits are cut off behind the letters of a kind and read alike. -/
theorem ofOctets?_of_letters {text : String} {kind : Kind} {x y : Char} {digits : List Char}
    (hx : x.toNat < 0x80) (hy : y.toNat < 0x80) (htext : text.toList = x :: y :: digits)
    (hkind : Kind.ofOctets? ((Bytes.ofText text).front? 2) = some kind) :
    ofOctets? text = some (ofDigits text kind digits) := by
  simp only [ofOctets?, hkind]
  rw [ofText_eq_ofChars, htext, back?_ofChars hx hy, Option.map_some, Hex.decodeOctets_ofChars,
    ofDigits_eq_ofBody]

/-- **The octets of a text name what its characters name.**  The digits can always be cut off where
the letters of a kind stand in front of them. -/
theorem ofOctets?_eq (text : String) : ofOctets? text = some (ofText text) := by
  have hkind := kindOfOctets?_eq text.toList
  rw [← ofText_eq_ofChars] at hkind
  rw [ofText]
  split
  · next digits htext =>
      rw [htext] at hkind
      exact ofOctets?_of_letters (by decide) (by decide) htext hkind
  · next digits htext =>
      rw [htext] at hkind
      exact ofOctets?_of_letters (by decide) (by decide) htext hkind
  · next hother hother' =>
      split at hkind
      · next rest htext => exact absurd htext (hother rest)
      · next rest htext => exact absurd htext (hother' rest)
      · simp only [ofOctets?, hkind]

end Address

end StakeLedger
