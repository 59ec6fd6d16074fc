import Wordlet.Text.Utf8
import Mathlib.Tactic.Common

/-!
# Decoding what was encoded

The bytes of a text are those of its characters, one after the other, and decoding reads them one
character at a time: after the bytes of a character it is between characters again.

* `decodeUtf8From_encodeChar`: **the bytes of one character**, in front of any others, are read as
  that character.
* `decodeUtf8_encodeUtf8`: **the bytes of a text** are read as its characters.
-/

namespace Wordlet.Text

/-! ## Bytes of a text -/

theorem toList_loop_eq (bytes : ByteArray) (i : Nat) (done : List UInt8) :
    ByteArray.toList.loop bytes i done = done.reverse ++ bytes.data.toList.drop i := by
  fun_induction ByteArray.toList.loop bytes i done with
  | case1 i done hlt ih =>
    have hi : i < bytes.data.toList.length := by simpa using hlt
    rw [ih, List.drop_eq_getElem_cons hi]
    simp [ByteArray.get!, hlt]
  | case2 i done hge =>
    rw [List.drop_eq_nil_of_le (by simpa using Nat.le_of_not_lt hge)]
    simp

/-- The bytes of a text are those of its characters. -/
theorem encodeUtf8_eq (s : String) :
    encodeUtf8 s = s.toList.flatMap String.utf8EncodeChar := by
  have hbytes : encodeUtf8 s = s.toByteArray.data.toList := by
    rw [encodeUtf8, String.toUTF8_eq_toByteArray, ByteArray.toList, toList_loop_eq]
    rfl
  rw [hbytes]
  conv => lhs; rw [← String.ofList_toList (s := s)]
  exact List.toList_data_toByteArray

/-! ## Steps of the decoder -/

section Steps

variable {b low high lead : UInt8} {seen missing value offset : Nat} {bytes : List UInt8}

theorem decodeUtf8From_ascii (hb : b < 0x80) :
    decodeUtf8From {} offset (b :: bytes) =
      (decodeUtf8From {} (offset + 1) bytes).map (Char.ofNat b.toNat :: ·) := by
  have htail : utf8Tail? b = some (0, 0x80, 0xbf) := if_pos hb
  rw [decodeUtf8From, if_pos rfl, htail]
  cases decodeUtf8From {} (offset + 1) bytes <;> rfl

theorem decodeUtf8From_continue (hb : low ≤ b ∧ b ≤ high) :
    decodeUtf8From ⟨lead, seen, missing + 2, low, high, value⟩ offset (b :: bytes) =
      decodeUtf8From ⟨lead, seen + 1, missing + 1, 0x80, 0xbf, 0x40 * value + b.toNat % 0x40⟩
        (offset + 1) bytes := by
  rw [decodeUtf8From, if_neg (by simp), if_pos hb, if_neg (by simp)]
  rfl

theorem decodeUtf8From_last (hb : low ≤ b ∧ b ≤ high) :
    decodeUtf8From ⟨lead, seen, 1, low, high, value⟩ offset (b :: bytes) =
      (decodeUtf8From {} (offset + 1) bytes).map
        (Char.ofNat (0x40 * value + b.toNat % 0x40) :: ·) := by
  rw [decodeUtf8From, if_neg (by simp), if_pos hb, if_pos rfl]
  cases decodeUtf8From {} (offset + 1) bytes <;> rfl

end Steps

/-! ## Bytes as numbers -/

/-- How many bytes follow the lead byte of a character that has more than one. -/
def utf8More (lead : Nat) : Nat := if lead < 0xe0 then 1 else if lead < 0xf0 then 2 else 3

/-- The bits that such a lead byte contributes. -/
def utf8Bits (lead : Nat) : Nat :=
  if lead < 0xe0 then lead % 0x20 else if lead < 0xf0 then lead % 0x10 else lead % 8

/-- The least second byte of a character, by its lead byte: below it, fewer bytes would do. -/
def utf8Low (lead : Nat) : Nat := if lead = 0xe0 then 0xa0 else if lead = 0xf0 then 0x90 else 0x80

/-- The greatest second byte of a character, by its lead byte: above it stand the surrogates and the
numbers after the last code point. -/
def utf8High (lead : Nat) : Nat := if lead = 0xed then 0x9f else if lead = 0xf4 then 0x8f else 0xbf

theorem utf8Tail?_ofNat : ∀ n < 256, utf8Tail? (UInt8.ofNat n) =
    if n < 0x80 then some (0, 0x80, 0xbf)
    else if 0xc2 ≤ n ∧ n < 0xf5 then
      some (utf8More n, UInt8.ofNat (utf8Low n), UInt8.ofNat (utf8High n))
    else none := by
  decide +kernel

/-- Bytes are in the order of their numbers. -/
theorem ofNat_between {low n high : Nat} (h : low ≤ n ∧ n ≤ high) (hhigh : high < 256) :
    UInt8.ofNat low ≤ UInt8.ofNat n ∧ UInt8.ofNat n ≤ UInt8.ofNat high := by
  have hn : n < 256 := Nat.lt_of_le_of_lt h.2 hhigh
  have hlow : low < 256 := Nat.lt_of_le_of_lt h.1 hn
  rwa [UInt8.ofNat_le_iff_le hlow hn, UInt8.ofNat_le_iff_le hn hhigh]

/-- A byte after the lead byte carries six bits. -/
theorem toNat_continuation (n : Nat) : (UInt8.ofNat (n % 64 + 128)).toNat % 0x40 = n % 64 := by
  rw [UInt8.toNat_ofNat_of_lt' (by show _ < 256; omega)]
  omega

theorem continuation_between (n : Nat) :
    0x80 ≤ UInt8.ofNat (n % 64 + 128) ∧ UInt8.ofNat (n % 64 + 128) ≤ 0xbf := by
  have hrange : 128 ≤ n % 64 + 128 ∧ n % 64 + 128 ≤ 191 := by omega
  exact ofNat_between hrange (by decide)

/-! ## Characters -/

/-- The code of a character is no surrogate and not after the last code point. -/
theorem isScalar (c : Char) :
    c.val.toNat < 0xd800 ∨ 0xe000 ≤ c.val.toNat ∧ c.val.toNat < 0x110000 := by
  have hvalid := c.valid
  unfold UInt32.isValidChar Nat.isValidChar at hvalid
  omega

/-- The lead byte of a character that has more than one. -/
theorem decodeUtf8From_lead {m : Nat} (hm : 0xc2 ≤ m ∧ m < 0xf5) (offset : Nat)
    (bytes : List UInt8) :
    decodeUtf8From {} offset (UInt8.ofNat m :: bytes) =
      decodeUtf8From ⟨UInt8.ofNat m, 1, utf8More m, UInt8.ofNat (utf8Low m),
        UInt8.ofNat (utf8High m), utf8Bits m⟩ (offset + 1) bytes := by
  have htail := utf8Tail?_ofNat m (by omega)
  rw [if_neg (by omega), if_pos hm] at htail
  have hbits : utf8LeadBits (UInt8.ofNat m) = utf8Bits m := by
    simp only [utf8LeadBits, utf8Bits, UInt8.lt_iff_toNat_lt, UInt8.reduceToNat,
      UInt8.toNat_ofNat_of_lt' (show m < 256 by omega)]
    exact if_neg (by omega)
  obtain ⟨more, hmore⟩ : ∃ more, utf8More m = more + 1 := by
    refine Nat.exists_eq_succ_of_ne_zero ?_
    unfold utf8More
    split_ifs <;> omega
  rw [hmore] at htail ⊢
  rw [decodeUtf8From, if_pos rfl, htail, ← hbits]

/-- The second byte of a character is in the range that its lead byte allows. -/
theorem second_between {m n : Nat} (hn : 0x80 ≤ n ∧ n < 0xc0)
    (hm : (m = 0xe0 → 0xa0 ≤ n) ∧ (m = 0xed → n < 0xa0) ∧ (m = 0xf0 → 0x90 ≤ n) ∧
      (m = 0xf4 → n < 0x90)) :
    UInt8.ofNat (utf8Low m) ≤ UInt8.ofNat n ∧ UInt8.ofNat n ≤ UInt8.ofNat (utf8High m) := by
  refine ofNat_between ?_ ?_
  · unfold utf8Low utf8High
    split_ifs <;> omega
  · unfold utf8High
    split_ifs <;> omega

/-- **The bytes of one character**, in front of any others. -/
theorem decodeUtf8From_encodeChar (c : Char) (offset : Nat) (bytes : List UInt8) :
    decodeUtf8From {} offset (String.utf8EncodeChar c ++ bytes) =
      (decodeUtf8From {} (offset + (String.utf8EncodeChar c).length) bytes).map (c :: ·) := by
  have hscalar := isScalar c
  have hc : Char.ofNat c.val.toNat = c := Char.ofNat_toNat c
  unfold String.utf8EncodeChar
  generalize c.val.toNat = v at hscalar hc ⊢
  dsimp only
  -- one case for each number of bytes
  split_ifs with h₁ h₂ h₃
  · have hv : v < 256 := by omega
    have hascii : UInt8.ofNat v < 0x80 := by
      rw [UInt8.lt_iff_toNat_lt, UInt8.toNat_ofNat_of_lt' hv]
      exact Nat.lt_succ_of_le h₁
    rw [List.cons_append, List.nil_append, decodeUtf8From_ascii hascii,
      UInt8.toNat_ofNat_of_lt' hv, hc]
    rfl
  · generalize hm : v / 64 % 32 + 192 = m
    have hvalue : 0x40 * (m % 0x20) + v % 64 = v := by omega
    rw [List.cons_append, decodeUtf8From_lead (by omega), utf8More, if_pos (by omega), utf8Bits,
      if_pos (by omega), List.cons_append,
      decodeUtf8From_last (second_between (by omega) (by omega)), toNat_continuation, hvalue, hc]
    rfl
  · generalize hm : v / 4096 % 16 + 224 = m
    have hvalue : 0x40 * (0x40 * (m % 0x10) + v / 64 % 64) + v % 64 = v := by omega
    rw [List.cons_append, decodeUtf8From_lead (by omega), utf8More, if_neg (by omega),
      if_pos (by omega), utf8Bits, if_neg (by omega), if_pos (by omega), List.cons_append,
      decodeUtf8From_continue (second_between (by omega) (by omega)), List.cons_append,
      decodeUtf8From_last (continuation_between v), toNat_continuation, toNat_continuation,
      hvalue, hc]
    rfl
  · generalize hm : v / 262144 % 8 + 240 = m
    have hvalue :
        0x40 * (0x40 * (0x40 * (m % 8) + v / 4096 % 64) + v / 64 % 64) + v % 64 = v := by omega
    rw [List.cons_append, decodeUtf8From_lead (by omega), utf8More, if_neg (by omega),
      if_neg (by omega), utf8Bits, if_neg (by omega), if_neg (by omega), List.cons_append,
      decodeUtf8From_continue (second_between (by omega) (by omega)), List.cons_append,
      decodeUtf8From_continue (continuation_between _), List.cons_append,
      decodeUtf8From_last (continuation_between v), toNat_continuation, toNat_continuation,
      toNat_continuation, hvalue, hc]
    rfl

/-- **Characters before other bytes.** -/
theorem decodeUtf8From_append (cs : List Char) (bytes : List UInt8) : ∀ offset,
    decodeUtf8From {} offset (cs.flatMap String.utf8EncodeChar ++ bytes) =
      (decodeUtf8From {} (offset + (cs.flatMap String.utf8EncodeChar).length) bytes).map
        (cs ++ ·) := by
  induction cs with
  | nil =>
    intro offset
    show decodeUtf8From {} offset bytes = (decodeUtf8From {} offset bytes).map id
    cases decodeUtf8From {} offset bytes <;> rfl
  | cons c cs ih =>
    intro offset
    rw [List.flatMap_cons, List.append_assoc, decodeUtf8From_encodeChar, ih, List.length_append,
      Nat.add_assoc]
    cases decodeUtf8From {} _ bytes <;> rfl

theorem decodeUtf8From_flatMap (cs : List Char) (offset : Nat) :
    decodeUtf8From {} offset (cs.flatMap String.utf8EncodeChar) = .ok cs := by
  have happend := decodeUtf8From_append cs [] offset
  rw [List.append_nil] at happend
  rw [happend]
  exact congrArg Except.ok (List.append_nil cs)

/-- **Decoding the bytes of a text** gives its characters. -/
theorem decodeUtf8_encodeUtf8 (s : String) : decodeUtf8 (encodeUtf8 s) = .ok s.toList := by
  rw [encodeUtf8_eq]
  exact decodeUtf8From_flatMap s.toList 0

end Wordlet.Text
