import Mathlib.Data.List.TakeWhile
import Mathlib.Data.Nat.Digits.Defs
import Wordlet.Text.Numeral

/-!
# Texts of integers

A text denotes an integer when it is, but for white space around it, an optional sign and decimal
digits of any scripts, with at most single underscores strictly between the digits. `Denotes` says
so of the text as a whole, without regard to the order in which it is read, and gives the integer as
the value of the digits in base ten.

* `trim_eq`, `exists_trim`: what is left of a text without the white space around it.
* `digits?_eq_some_iff`: **the digits that are read** are those of a row of digits.
* `integer?_eq_some_iff`: **the integer that is read** is the one that the text denotes.
* `Denotes.head?_ne_dash`: a text that denotes a positive integer begins with no dash.
-/

namespace Wordlet.Text

/-! ## White space around a text -/

section Trim

variable {p : Char → Bool} {before body after : List Char}

/-- A text whose ends are not in the class `p` is left when the characters of the class are removed
from around it. -/
theorem trim_eq (hbefore : ∀ c ∈ before, p c = true) (hafter : ∀ c ∈ after, p c = true)
    (hhead : ∃ c, body.head? = some c ∧ p c = false)
    (hlast : ∃ c, body.getLast? = some c ∧ p c = false) :
    trim p (before ++ body ++ after) = body := by
  obtain ⟨c, hc, hpc⟩ := hhead
  obtain ⟨d, hd, hpd⟩ := hlast
  obtain ⟨front, hfront⟩ := List.getLast?_eq_some_iff.1 hd
  obtain ⟨rest, hrest⟩ := List.head?_eq_some_iff.1 hc
  have hstart : (before ++ body ++ after).dropWhile p = body ++ after := by
    rw [List.append_assoc, List.dropWhile_append_of_pos hbefore, hrest, List.cons_append,
      List.dropWhile_cons_of_neg (by simp [hpc])]
  have hend : (body ++ after).reverse.dropWhile p = body.reverse := by
    have hafter' : ∀ c ∈ after.reverse, p c = true := fun c hc => hafter c (List.mem_reverse.1 hc)
    rw [List.reverse_append, List.dropWhile_append_of_pos hafter', hfront, List.reverse_append,
      List.reverse_singleton, List.singleton_append, List.dropWhile_cons_of_neg (by simp [hpd])]
  rw [trim, hstart, hend, List.reverse_reverse]

/-- Only characters of the class `p` are removed. -/
theorem exists_trim (p : Char → Bool) (cs : List Char) :
    ∃ before after, cs = before ++ trim p cs ++ after ∧ (∀ c ∈ before, p c = true) ∧
      ∀ c ∈ after, p c = true := by
  refine ⟨cs.takeWhile p, ((cs.dropWhile p).reverse.takeWhile p).reverse, ?_,
    fun c hc => List.mem_takeWhile_imp hc,
    fun c hc => List.mem_takeWhile_imp (List.mem_reverse.1 hc)⟩
  rw [trim, List.append_assoc, ← List.reverse_append, List.takeWhile_append_dropWhile,
    List.reverse_reverse, List.takeWhile_append_dropWhile]

end Trim

/-! ## Digits -/

theorem digitValue?_underscore : digitValue? '_' = none := by decide

/-- A digit is no underscore. -/
theorem ne_underscore_of_digitValue? {c : Char} (h : (digitValue? c).isSome) : c ≠ '_' := by
  rintro rfl
  rw [digitValue?_underscore] at h
  cases h

/-- The characters can follow a digit: they are digits and underscores, no underscore is the last of
them or next to another one. -/
structure GoesOn (cs : List Char) : Prop where
  digits : ∀ c ∈ cs, c = '_' ∨ (digitValue? c).isSome
  last : cs.getLast? ≠ some '_'
  single : ¬['_', '_'] <:+: cs

/-- **A row of digits**: one or more digits, with at most single underscores strictly between
them. -/
structure IsDigitRow (cs : List Char) : Prop extends GoesOn cs where
  ne_nil : cs ≠ []
  head : cs.head? ≠ some '_'

section GoesOn

variable {c : Char} {cs : List Char}

theorem goesOn_nil : GoesOn [] := ⟨by simp, by simp, by simp⟩

/-- What goes on after a digit, and after one that an underscore may precede. -/
theorem goesOn_cons (hc : c ≠ '_') : GoesOn (c :: cs) ↔ (digitValue? c).isSome ∧ GoesOn cs := by
  have hlast : (c :: cs).getLast? ≠ some '_' ↔ cs.getLast? ≠ some '_' := by
    rw [List.getLast?_cons]
    cases cs.getLast? with
    | none => simpa using hc
    | some d => simp
  have hsingle : ¬['_', '_'] <:+: c :: cs ↔ ¬['_', '_'] <:+: cs := by
    rw [List.infix_cons_iff, List.cons_prefix_cons]
    simp [Ne.symm hc]
  constructor
  · rintro ⟨hdigits, hl, hs⟩
    obtain ⟨hfirst, hrest⟩ := List.forall_mem_cons.1 hdigits
    exact ⟨hfirst.resolve_left hc, hrest, hlast.1 hl, hsingle.1 hs⟩
  · rintro ⟨hfirst, hrest, hl, hs⟩
    exact ⟨List.forall_mem_cons.2 ⟨.inr hfirst, hrest⟩, hlast.2 hl, hsingle.2 hs⟩

/-- An underscore may stand before a digit. -/
theorem goesOn_underscore :
    GoesOn ('_' :: cs) ↔ (∃ c ∈ cs.head?, c ≠ '_') ∧ GoesOn cs := by
  have hlast : ('_' :: cs).getLast? ≠ some '_' ↔ cs ≠ [] ∧ cs.getLast? ≠ some '_' := by
    cases cs with
    | nil => simp
    | cons c cs => rw [List.getLast?_cons_cons]; simp
  have hsingle : ¬['_', '_'] <:+: '_' :: cs ↔
      cs.head? ≠ some '_' ∧ ¬['_', '_'] <:+: cs := by
    rw [List.infix_cons_iff, List.cons_prefix_cons, not_or]
    cases cs with
    | nil => simp
    | cons c cs => simp [List.cons_prefix_cons, eq_comm]
  constructor
  · rintro ⟨hdigits, hl, hs⟩
    obtain ⟨hne, hl⟩ := hlast.1 hl
    obtain ⟨hhead, hs⟩ := hsingle.1 hs
    obtain ⟨c, cs, rfl⟩ := List.exists_cons_of_ne_nil hne
    exact ⟨⟨c, rfl, fun hc => hhead (congrArg some hc)⟩, (List.forall_mem_cons.1 hdigits).2, hl, hs⟩
  · rintro ⟨⟨c, hc, hne⟩, hdigits, hl, hs⟩
    refine ⟨List.forall_mem_cons.2 ⟨.inl rfl, hdigits⟩, hlast.2 ⟨?_, hl⟩, hsingle.2 ⟨?_, hs⟩⟩
    · rintro rfl
      cases hc
    · rw [hc]
      exact fun h => hne (Option.some.inj h)

/-- An underscore and a digit go on as what comes after them does. -/
theorem goesOn_underscore_digit :
    GoesOn ('_' :: c :: cs) ↔ (digitValue? c).isSome ∧ GoesOn cs := by
  rw [goesOn_underscore]
  constructor
  · rintro ⟨⟨d, hd, hne⟩, hgoes⟩
    obtain rfl := Option.some.inj hd
    exact (goesOn_cons hne).1 hgoes
  · rintro ⟨hc, hgoes⟩
    have hne := ne_underscore_of_digitValue? hc
    exact ⟨⟨c, rfl, hne⟩, (goesOn_cons hne).2 ⟨hc, hgoes⟩⟩

end GoesOn

/-- The digits that are read after a digit. -/
theorem digitsAfter?_eq_some_iff (cs : List Char) : ∀ ds,
    digitsAfter? cs = some ds ↔ GoesOn cs ∧ ds = cs.filterMap digitValue? := by
  fun_induction digitsAfter? cs with
  | case1 => simp [goesOn_nil, eq_comm]
  | case2 c cs d ds hds hd ih =>
    intro ds'
    obtain ⟨hrest, rfl⟩ := (ih ds).1 hds
    have hc : (digitValue? c).isSome := by rw [hd]; rfl
    rw [goesOn_underscore_digit, List.filterMap_cons_none digitValue?_underscore,
      List.filterMap_cons_some hd]
    simp [hc, hrest, eq_comm]
  | case3 c cs hnone ih =>
    intro ds'
    refine iff_of_false (by simp) ?_
    rintro ⟨hgoes, -⟩
    obtain ⟨hc, hrest⟩ := goesOn_underscore_digit.1 hgoes
    obtain ⟨d, hd⟩ := Option.isSome_iff_exists.1 hc
    exact hnone d _ hd ((ih _).2 ⟨hrest, rfl⟩)
  | case4 c cs _ d ds hds hd ih =>
    intro ds'
    obtain ⟨hrest, rfl⟩ := (ih ds).1 hds
    have hc : (digitValue? c).isSome := by rw [hd]; rfl
    rw [goesOn_cons (ne_underscore_of_digitValue? hc), List.filterMap_cons_some hd]
    simp [hc, hrest, eq_comm]
  | case5 c cs hlone hnone ih =>
    intro ds'
    refine iff_of_false (by simp) ?_
    rintro ⟨hgoes, -⟩
    -- an underscore with a character after it is another case, and one without is the last
    have hne : c ≠ '_' := by
      rintro rfl
      obtain ⟨⟨c', hc', -⟩, -⟩ := goesOn_underscore.1 hgoes
      obtain ⟨rest, rfl⟩ := List.head?_eq_some_iff.1 hc'
      exact hlone c' rest rfl rfl
    obtain ⟨hc, hrest⟩ := (goesOn_cons hne).1 hgoes
    obtain ⟨d, hd⟩ := Option.isSome_iff_exists.1 hc
    exact hnone d _ hd ((ih _).2 ⟨hrest, rfl⟩)

/-- A row of digits is a digit and what goes on after it. -/
theorem isDigitRow_cons {c : Char} {cs : List Char} :
    IsDigitRow (c :: cs) ↔ (digitValue? c).isSome ∧ GoesOn cs := by
  constructor
  · rintro ⟨hgoes, -, hhead⟩
    exact (goesOn_cons fun hc => hhead (congrArg some hc)).1 hgoes
  · rintro ⟨hc, hrest⟩
    have hne := ne_underscore_of_digitValue? hc
    exact ⟨(goesOn_cons hne).2 ⟨hc, hrest⟩, List.cons_ne_nil c cs,
      fun h => hne (Option.some.inj h)⟩

/-- **The digits that are read** are those of a row of digits. -/
theorem digits?_eq_some_iff {cs : List Char} {ds : List Nat} :
    digits? cs = some ds ↔ IsDigitRow cs ∧ ds = cs.filterMap digitValue? := by
  cases cs with
  | nil => exact iff_of_false (by simp [digits?]) fun h => h.1.ne_nil rfl
  | cons c cs =>
    rw [isDigitRow_cons, digits?]
    have hrest := digitsAfter?_eq_some_iff cs
    cases hd : digitValue? c with
    | none => simp
    | some d =>
      rw [List.filterMap_cons_some hd]
      cases hds : digitsAfter? cs with
      | none =>
        have hno : ¬GoesOn cs := fun hgoes => by
          rw [(hrest _).2 ⟨hgoes, rfl⟩] at hds
          cases hds
        simp [hno]
      | some tail =>
        obtain ⟨hgoes, rfl⟩ := (hrest tail).1 hds
        simp [hgoes, eq_comm]

/-! ## Numbers -/

/-- The number that a row of digit values denotes is their value in base ten. -/
theorem ofDigits_eq (ds : List Nat) : ofDigits ds = Nat.ofDigits 10 ds.reverse := by
  rw [ofDigits, List.foldl_eq_foldr_reverse, Nat.ofDigits_eq_foldr]
  congr 1
  funext d n
  exact Nat.add_comm _ _

theorem natural?_eq_some_iff {cs : List Char} {n : Nat} :
    natural? cs = some n ↔ IsDigitRow cs ∧ (cs.filterMap digitValue?).length ≤ 4300 ∧
      n = Nat.ofDigits 10 (cs.filterMap digitValue?).reverse := by
  unfold natural?
  cases hds : digits? cs with
  | none =>
    refine iff_of_false (by simp) fun h => ?_
    rw [digits?_eq_some_iff.2 ⟨h.1, rfl⟩] at hds
    cases hds
  | some ds =>
    obtain ⟨hrow, rfl⟩ := digits?_eq_some_iff.1 hds
    simp [hrow, maxDigits, ofDigits_eq, eq_comm]

/-- **The text `t` denotes the integer `n`**: but for white space around it, it is an optional sign
and a row of at most 4300 digits, whose value in base ten is `n` up to the sign. -/
def Denotes (t : String) (n : Int) : Prop :=
  ∃ before sign cs after, t.toList = before ++ (sign ++ cs) ++ after ∧
    (∀ c ∈ before, isSpace c = true) ∧ (∀ c ∈ after, isSpace c = true) ∧
    (sign = [] ∨ sign = ['+'] ∨ sign = ['-']) ∧ IsDigitRow cs ∧
    (cs.filterMap digitValue?).length ≤ 4300 ∧
    n = (if sign = ['-'] then -1 else 1) *
      (Nat.ofDigits 10 (cs.filterMap digitValue?).reverse : Nat)

/-- No code point of a digit is one of white space. -/
theorem isSpace_of_digitValue? {c : Char} (h : (digitValue? c).isSome) : isSpace c = false := by
  have hzeros : ∀ z ∈ digitZeros, ∀ i < 10, ¬((9 ≤ z + i ∧ z + i ≤ 13) ∨ z + i = 0x20 ∨
      z + i = 0x85 ∨ z + i = 0xa0 ∨ z + i = 0x1680 ∨ (0x2000 ≤ z + i ∧ z + i ≤ 0x200a) ∨
      z + i = 0x2028 ∨ z + i = 0x2029 ∨ z + i = 0x202f ∨ z + i = 0x205f ∨ z + i = 0x3000) := by
    decide +kernel
  unfold digitValue? at h
  rw [Option.isSome_map, List.find?_isSome] at h
  obtain ⟨z, hz, hrange⟩ := h
  simp only [Bool.and_eq_true, decide_eq_true_eq] at hrange
  obtain ⟨i, hi⟩ := Nat.exists_eq_add_of_le hrange.1
  have hno := hzeros z hz i (by omega)
  rw [← hi] at hno
  simpa [isSpace, and_assoc, or_assoc] using hno

namespace IsDigitRow

variable {cs : List Char}

theorem exists_head (h : IsDigitRow cs) : ∃ c, cs.head? = some c ∧ (digitValue? c).isSome := by
  obtain ⟨c, rest, rfl⟩ := List.exists_cons_of_ne_nil h.ne_nil
  exact ⟨c, rfl, (isDigitRow_cons.1 h).1⟩

theorem exists_last (h : IsDigitRow cs) : ∃ c, cs.getLast? = some c ∧ (digitValue? c).isSome := by
  refine ⟨cs.getLast h.ne_nil, List.getLast?_eq_some_getLast h.ne_nil, ?_⟩
  refine (h.digits _ (List.getLast_mem h.ne_nil)).resolve_left fun hc => h.last ?_
  rw [List.getLast?_eq_some_getLast h.ne_nil, hc]

end IsDigitRow

/-- A sign and a row of digits have no white space at their ends. -/
theorem trim_signed {before sign cs after : List Char}
    (hbefore : ∀ c ∈ before, isSpace c = true) (hafter : ∀ c ∈ after, isSpace c = true)
    (hsign : sign = [] ∨ sign = ['+'] ∨ sign = ['-']) (hrow : IsDigitRow cs) :
    trim isSpace (before ++ (sign ++ cs) ++ after) = sign ++ cs := by
  obtain ⟨c, hc, hdigit⟩ := hrow.exists_head
  obtain ⟨d, hd, hdigit'⟩ := hrow.exists_last
  refine trim_eq hbefore hafter ?_ ⟨d, ?_, isSpace_of_digitValue? hdigit'⟩
  · rcases hsign with rfl | rfl | rfl
    · exact ⟨c, hc, isSpace_of_digitValue? hdigit⟩
    · exact ⟨'+', rfl, by decide⟩
    · exact ⟨'-', rfl, by decide⟩
  · rw [List.getLast?_append, hd]
    rfl

/-- **The integer that is read** is the one that the text denotes. -/
theorem integer?_eq_some_iff {t : String} {n : Int} : integer? t = some n ↔ Denotes t n := by
  constructor
  · intro h
    obtain ⟨before, after, htext, hbefore, hafter⟩ := exists_trim isSpace t.toList
    have hdenotes : ∀ sign cs k, trim isSpace t.toList = sign ++ cs →
        (sign = [] ∨ sign = ['+'] ∨ sign = ['-']) → natural? cs = some k →
        Denotes t ((if sign = ['-'] then -1 else 1) * (k : Int)) := by
      intro sign cs k htrim hsign hk
      obtain ⟨hrow, hlength, rfl⟩ := natural?_eq_some_iff.1 hk
      rw [htrim] at htext
      exact ⟨before, sign, cs, after, htext, hbefore, hafter, hsign, hrow, hlength, rfl⟩
    unfold integer? at h
    split at h
    · next cs htrim =>
      obtain ⟨k, hk, rfl⟩ : ∃ k : Nat, natural? cs = some k ∧ -(k : Int) = n := by
        simpa [Option.bind_eq_some_iff] using h
      simpa using hdenotes ['-'] cs k htrim (by simp) hk
    · next cs htrim =>
      obtain ⟨k, hk, rfl⟩ : ∃ k : Nat, natural? cs = some k ∧ (k : Int) = n := by
        simpa [Option.bind_eq_some_iff] using h
      simpa using hdenotes ['+'] cs k htrim (by simp) hk
    · obtain ⟨k, hk, rfl⟩ : ∃ k : Nat, natural? _ = some k ∧ (k : Int) = n := by
        simpa [Option.bind_eq_some_iff] using h
      simpa using hdenotes [] _ k rfl (by simp) hk
  · rintro ⟨before, sign, cs, after, htext, hbefore, hafter, hsign, hrow, hlength, rfl⟩
    have hk := natural?_eq_some_iff.2 ⟨hrow, hlength, rfl⟩
    unfold integer?
    rw [htext, trim_signed hbefore hafter hsign hrow]
    rcases hsign with rfl | rfl | rfl
    · -- a digit is neither of the signs
      obtain ⟨c, hc, hdigit⟩ := hrow.exists_head
      obtain ⟨rest, rfl⟩ := List.head?_eq_some_iff.1 hc
      rw [List.nil_append]
      split
      · next heq =>
        cases heq
        exact absurd hdigit (by decide)
      · next heq =>
        cases heq
        exact absurd hdigit (by decide)
      · rw [hk]
        simp
    · simp [hk]
    · simp [hk]

/-- A text that denotes a positive integer begins with no dash. -/
theorem Denotes.head?_ne_dash {t : String} {n : Int} (h : Denotes t n) (hn : 1 ≤ n) :
    t.toList.head? ≠ some '-' := by
  obtain ⟨before, sign, cs, after, htext, hbefore, -, hsign, hrow, -, rfl⟩ := h
  intro hhead
  rw [htext] at hhead
  cases before with
  | cons c before =>
    obtain rfl : c = '-' := Option.some.inj hhead
    exact absurd (hbefore '-' (by simp)) (by decide)
  | nil =>
    rcases hsign with rfl | rfl | rfl
    · obtain ⟨c, hc, hdigit⟩ := hrow.exists_head
      obtain ⟨rest, rfl⟩ := List.head?_eq_some_iff.1 hc
      obtain rfl : c = '-' := Option.some.inj hhead
      exact absurd hdigit (by decide)
    · cases hhead
    · rw [if_pos rfl] at hn
      omega

end Wordlet.Text
