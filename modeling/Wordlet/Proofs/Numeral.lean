import Wordlet.Text.Numeral

/-!
# Numerals of source words

A word is a numeral when it is an optional plus sign and one or more ASCII digits. `IsNumeral` says
so of the word and its digits, and `Nat.ofDigitChars 10` is the number that the digits denote.

* `wordDigits?_eq_some_iff`: the digits that are read off a word are those of the numeral it is.
* `isNumeral_repr`: the decimal text of a natural number is a numeral that denotes it.
-/

namespace Wordlet.Text

/-- The word `w` is an optional plus sign and the ASCII digits `cs`, of which there is at least
one. -/
def IsNumeral (w : String) (cs : List Char) : Prop :=
  cs ≠ [] ∧ (∀ c ∈ cs, c.isDigit = true) ∧ (w.toList = cs ∨ w.toList = '+' :: cs)

/-- The value of an ASCII digit. -/
def digitOf (c : Char) : Nat := c.toNat - '0'.toNat

theorem asciiDigitValue?_eq (c : Char) :
    asciiDigitValue? c = if c.isDigit = true then some (digitOf c) else none := by
  have h : ('0' ≤ c ∧ c ≤ '9') ↔ c.isDigit = true := by
    simp only [Char.isDigit, Bool.and_eq_true, decide_eq_true_eq]
    rfl
  simp only [asciiDigitValue?, h, digitOf]

theorem mapM_asciiDigitValue? (cs : List Char) (ds : List Nat) :
    cs.mapM asciiDigitValue? = some ds ↔
      (∀ c ∈ cs, c.isDigit = true) ∧ ds = cs.map digitOf := by
  induction cs generalizing ds with
  | nil =>
    rw [List.mapM_nil, Option.pure_def, Option.some.injEq, List.map_nil]
    exact ⟨fun h => ⟨by simp, h.symm⟩, fun h => h.2.symm⟩
  | cons c cs ih =>
    rw [List.mapM_cons, asciiDigitValue?_eq]
    by_cases hc : c.isDigit = true
    · simp only [hc, if_true, Option.bind_eq_bind, Option.bind_some, Option.bind_eq_some_iff, ih,
        List.forall_mem_cons, true_and, List.map_cons, Option.pure_def, Option.some.injEq]
      constructor
      · rintro ⟨ds', ⟨hcs, rfl⟩, rfl⟩; exact ⟨hcs, rfl⟩
      · rintro ⟨hcs, rfl⟩; exact ⟨_, ⟨hcs, rfl⟩, rfl⟩
    · simp [hc]

/-- A plus sign is no digit, so a numeral has one row of digits. -/
theorem IsNumeral.dropPlus_eq {w : String} {cs : List Char} (h : IsNumeral w cs) :
    dropPlus w.toList = cs := by
  obtain ⟨hne, hd, hw | hw⟩ := h
  · rw [hw]
    unfold dropPlus
    split
    · exact absurd (hd '+' (by simp)) (by decide)
    · rfl
  · rw [hw]; rfl

theorem IsNumeral.unique {w : String} {cs cs' : List Char} (h : IsNumeral w cs)
    (h' : IsNumeral w cs') : cs = cs' :=
  h.dropPlus_eq.symm.trans h'.dropPlus_eq

theorem IsNumeral.length_le {w : String} {cs : List Char} (h : IsNumeral w cs) :
    cs.length ≤ w.toList.length := by
  rcases h.2.2 with h | h <;> simp [h]

theorem eq_dropPlus_or (cs : List Char) : cs = dropPlus cs ∨ cs = '+' :: dropPlus cs := by
  unfold dropPlus
  split
  · right; rfl
  · left; rfl

/-- **Reading off the digits of a word.** -/
theorem wordDigits?_eq_some_iff {w : String} {ds : List Nat} :
    wordDigits? w.toList = some ds ↔ ∃ cs, IsNumeral w cs ∧ ds = cs.map digitOf := by
  have hread : wordDigits? w.toList = some ds ↔ dropPlus w.toList ≠ [] ∧
      (dropPlus w.toList).mapM asciiDigitValue? = some ds := by
    unfold wordDigits?
    split
    · rename_i h; simp [h]
    · rename_i h; exact ⟨fun hm => ⟨h, hm⟩, fun hm => hm.2⟩
  rw [hread, mapM_asciiDigitValue?]
  constructor
  · rintro ⟨hne, hd, rfl⟩
    exact ⟨_, ⟨hne, hd, eq_dropPlus_or w.toList⟩, rfl⟩
  · rintro ⟨cs, h, rfl⟩
    rw [h.dropPlus_eq]
    exact ⟨h.1, h.2.1, rfl⟩

theorem wordDigits?_eq_none_iff {w : String} :
    wordDigits? w.toList = none ↔ ∀ cs, ¬IsNumeral w cs := by
  rw [Option.eq_none_iff_forall_ne_some]
  constructor
  · intro h cs hcs; exact h _ (wordDigits?_eq_some_iff.2 ⟨cs, hcs, rfl⟩)
  · intro h ds hds
    obtain ⟨cs, hcs, -⟩ := wordDigits?_eq_some_iff.1 hds
    exact h cs hcs

theorem ofDigits_map_digitOf (cs : List Char) :
    ofDigits (cs.map digitOf) = Nat.ofDigitChars 10 cs 0 := by
  simp only [ofDigits, List.foldl_map, Nat.ofDigitChars_eq_foldl, digitOf]

/-- **The decimal text of a number is a numeral.** -/
theorem isNumeral_repr (n : Nat) : IsNumeral n.repr (Nat.toDigits 10 n) :=
  ⟨Nat.toDigits_ne_nil, fun _ hc => Nat.isDigit_of_mem_toDigits (by decide) (by decide) hc,
    Or.inl Nat.toList_repr⟩

/-- A numeral with nothing before its digits is no longer than the number it denotes demands. -/
theorem length_toDigits_le_maxDigits {n : Nat} (h : n ≤ 4294967295) :
    (Nat.toDigits 10 n).length ≤ maxDigits := by
  have h10 : (Nat.toDigits 10 n).length ≤ 10 :=
    (Nat.length_toDigits_le_iff (by decide) (by decide)).2 (by omega)
  exact Nat.le_trans h10 (by decide)

end Wordlet.Text
