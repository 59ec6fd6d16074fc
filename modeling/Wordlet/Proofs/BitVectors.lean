import Mathlib.Data.BitVec
import Wordlet.Proofs.Values

/-!
# Natives as operations on bit vectors

The integers that natives are applied to may be negative and of any size. The remainder of an
integer modulo `2 ^ 32` is the number of a vector of 32 bits, its lowest ones. Seven of the nine
natives act on these vectors alone: the remainder of their value is what the machine operation of
the same name makes of the remainders of the arguments.

* `Bits.ofInt_not`, `Bits.ofInt_and`, `Bits.ofInt_or`, `Bits.ofInt_xor`: **operations on bits of
  unlimited numbers** act on each bit by itself, so they can be done on the lowest bits, at every
  width.
* `Native.ofInt_value?`: **reducing and applying a native can be exchanged.**
* `Native.value?_onBits`: the remainder of a value, and when the value is its own remainder.
-/

namespace Wordlet

namespace Bits

variable {w : Nat}

/-- The lowest bits of a complement are the complement of the lowest bits. -/
theorem ofInt_not (a : Int) : BitVec.ofInt w (Bits.not a) = ~~~BitVec.ofInt w a := by
  cases a with
  | ofNat m =>
    simp only [Bits.not, Int.ofNat_eq_natCast, BitVec.ofInt_natCast,
      BitVec.ofInt_negSucc_eq_not_ofNat]
  | negSucc m =>
    simp only [Bits.not, Int.ofNat_eq_natCast, BitVec.ofInt_natCast,
      BitVec.ofInt_negSucc_eq_not_ofNat, BitVec.not_not]

theorem ofNat_without (m n : Nat) :
    BitVec.ofNat w (without m n) = BitVec.ofNat w m &&& ~~~BitVec.ofNat w n := by
  rw [without, BitVec.ofNat_xor, BitVec.ofNat_and]
  ext i
  simp only [BitVec.getElem_xor, BitVec.getElem_and, BitVec.getElem_not]
  cases (BitVec.ofNat w m)[i] <;> cases (BitVec.ofNat w n)[i] <;> rfl

theorem ofInt_and (a b : Int) :
    BitVec.ofInt w (Bits.and a b) = BitVec.ofInt w a &&& BitVec.ofInt w b := by
  -- a negative number is the complement of a natural one, among integers and among vectors
  cases a <;> cases b <;>
    simp only [Bits.and, Int.ofNat_eq_natCast, BitVec.ofInt_natCast,
      BitVec.ofInt_negSucc_eq_not_ofNat]
  case ofNat.ofNat m n => exact BitVec.ofNat_and
  case ofNat.negSucc m n => exact ofNat_without m n
  case negSucc.ofNat m n => rw [ofNat_without, BitVec.and_comm]
  case negSucc.negSucc m n => rw [BitVec.ofNat_or, BitVec.not_or]

/-- Conjunction and disjunction of unlimited numbers are dual. -/
theorem not_and (a b : Int) : Bits.not (Bits.and a b) = Bits.or (Bits.not a) (Bits.not b) := by
  cases a <;> cases b <;> rfl

theorem not_not (a : Int) : Bits.not (Bits.not a) = a := by
  cases a <;> rfl

theorem ofInt_or (a b : Int) :
    BitVec.ofInt w (Bits.or a b) = BitVec.ofInt w a ||| BitVec.ofInt w b := by
  have hdual : Bits.or a b = Bits.not (Bits.and (Bits.not a) (Bits.not b)) := by
    rw [not_and, not_not, not_not]
  rw [hdual, ofInt_not, ofInt_and, ofInt_not, ofInt_not, BitVec.not_and, BitVec.not_not,
    BitVec.not_not]

theorem ofInt_xor (a b : Int) :
    BitVec.ofInt w (Bits.xor a b) = BitVec.ofInt w a ^^^ BitVec.ofInt w b := by
  cases a <;> cases b <;>
    simp only [Bits.xor, Int.ofNat_eq_natCast, BitVec.ofInt_natCast,
      BitVec.ofInt_negSucc_eq_not_ofNat, BitVec.ofNat_xor]
  case ofNat.negSucc m n => exact BitVec.not_xor_right
  case negSucc.ofNat m n => exact BitVec.not_xor_left
  case negSucc.negSucc m n => rw [← BitVec.not_xor_left, ← BitVec.not_xor_right, BitVec.not_not]

end Bits

namespace Native

/-- The operation on vectors of 32 bits that a native stands for. There is none for `equal`, which
compares whole integers, and for `print`, which operates on nothing. -/
def onBits? : Native → List (BitVec 32) → Option (BitVec 32)
  | or, [x, y] => some (x ||| y)
  | and, [x, y] => some (x &&& y)
  | xor, [x, y] => some (x ^^^ y)
  | not, [x] => some (~~~x)
  | add, [x, y] => some (x + y)
  | sub, [x, y] => some (x - y)
  | multiply, [x, y] => some (x * y)
  | _, _ => none

/-- The remainder of an integer is the number of its lowest 32 bits. -/
theorem reduce_eq (a : Int) : reduce a = ((BitVec.ofInt 32 a).toNat : Int) := by
  unfold reduce modulus
  rw [BitVec.toNat_ofInt]
  omega

theorem ofInt_reduce (a : Int) : BitVec.ofInt 32 (reduce a) = BitVec.ofInt 32 a := by
  rw [reduce_eq, BitVec.ofInt_natCast, BitVec.ofNat_toNat, BitVec.setWidth_eq]

theorem reduce_of_inRange {v : Int} (h : InRange v) : reduce v = v := by
  obtain ⟨hnonneg, hle⟩ := h
  unfold reduce modulus
  omega

/-- **Reducing and applying a native can be exchanged**, whatever the sign and the size of the
arguments are. -/
theorem ofInt_value? {n : Native} (hequal : n ≠ equal) (hprint : n ≠ print) {args : List Int}
    (harity : args.length = n.arity) :
    (n.value? args).map (BitVec.ofInt 32) = n.onBits? (args.map (BitVec.ofInt 32)) := by
  cases n with
  | or =>
    obtain ⟨a, b, rfl⟩ := List.length_eq_two.1 harity
    exact congrArg some (Bits.ofInt_or a b)
  | and =>
    obtain ⟨a, b, rfl⟩ := List.length_eq_two.1 harity
    exact congrArg some (Bits.ofInt_and a b)
  | xor =>
    obtain ⟨a, b, rfl⟩ := List.length_eq_two.1 harity
    exact congrArg some (Bits.ofInt_xor a b)
  | not =>
    obtain ⟨a, rfl⟩ := List.length_eq_one_iff.1 harity
    have hnot : BitVec.ofInt 32 (reduce (Bits.not a)) = ~~~BitVec.ofInt 32 a := by
      rw [ofInt_reduce, Bits.ofInt_not]
    exact congrArg some hnot
  | equal => exact absurd rfl hequal
  | add =>
    obtain ⟨a, b, rfl⟩ := List.length_eq_two.1 harity
    have hadd : BitVec.ofInt 32 (reduce (a + b)) = BitVec.ofInt 32 a + BitVec.ofInt 32 b := by
      rw [ofInt_reduce, BitVec.ofInt_add]
    exact congrArg some hadd
  | sub =>
    obtain ⟨a, b, rfl⟩ := List.length_eq_two.1 harity
    have hsub : BitVec.ofInt 32 (reduce (a - b)) = BitVec.ofInt 32 a - BitVec.ofInt 32 b := by
      rw [ofInt_reduce, Int.sub_eq_add_neg, BitVec.ofInt_add, BitVec.ofInt_neg,
        BitVec.sub_eq_add_neg]
    exact congrArg some hsub
  | multiply =>
    obtain ⟨a, b, rfl⟩ := List.length_eq_two.1 harity
    have hmul : BitVec.ofInt 32 (reduce (a * b)) = BitVec.ofInt 32 a * BitVec.ofInt 32 b := by
      rw [ofInt_reduce, BitVec.ofInt_mul]
    exact congrArg some hmul
  | print => exact absurd rfl hprint

/-- Four natives reduce their value themselves. -/
theorem inRange_of_reducing {n : Native} (hn : n ∈ [not, add, sub, multiply]) {args : List Int}
    {v : Int} (h : n.value? args = some v) : InRange v := by
  unfold value? at h
  -- in the order of the natives, of which five are not in the list
  split at h <;> cases h
  · exact absurd hn (by decide)
  · exact absurd hn (by decide)
  · exact absurd hn (by decide)
  · exact inRange_reduce _
  · exact absurd hn (by decide)
  · exact inRange_reduce _
  · exact inRange_reduce _
  · exact inRange_reduce _
  · exact absurd hn (by decide)

/-- **Natives are operations on 32 bits.** Let a native other than `equal` and `print` be applied to
as many integers as it takes, of any sign and size. It has a value, and the remainder of the value
modulo `2 ^ 32` is what the operation on vectors of 32 bits makes of the remainders of the
arguments. The value of `not`, `add`, `sub` and `multiply` is this remainder itself; that of `or`,
`and` and `xor` is if all arguments are unsigned 32-bit integers. -/
theorem value?_onBits {n : Native} (hequal : n ≠ equal) (hprint : n ≠ print) (args : List Int)
    (harity : args.length = n.arity) :
    ∃ v x, n.value? args = some v ∧ n.onBits? (args.map (BitVec.ofInt 32)) = some x ∧
      v % 2 ^ 32 = x.toNat ∧ (n ∈ [not, add, sub, multiply] → v = x.toNat) ∧
      (n ∈ [or, and, xor] → (∀ a ∈ args, 0 ≤ a ∧ a ≤ 4294967295) → v = x.toNat) := by
  obtain ⟨v, hv⟩ := Option.isSome_iff_exists.1 ((value?_isSome_iff n args).2 harity)
  have hx : n.onBits? (args.map (BitVec.ofInt 32)) = some (BitVec.ofInt 32 v) := by
    rw [← ofInt_value? hequal hprint harity, hv, Option.map_some]
  -- a value in range is its own remainder
  have hself : InRange v → v = (BitVec.ofInt 32 v).toNat := by
    intro hrange
    rw [← reduce_eq, reduce_of_inRange hrange]
  refine ⟨v, BitVec.ofInt 32 v, hv, hx, reduce_eq v, fun hn => ?_, fun _ hargs => ?_⟩
  · exact hself (inRange_of_reducing hn hv)
  · exact hself (inRange_of_value? hargs hv)

/-- Arguments below zero and beyond 32 bits, of which `xor` reduces nothing and `multiply` all, and
arguments of 32 bits, with which `or` has nothing to reduce. -/
theorem value?_onBits_negative :
    (∃ v x, Native.xor.value? [-1, 1099511627781] = some v ∧ v = -1099511627782 ∧
      Native.xor.onBits? [4294967295, 5] = some x ∧ v % 2 ^ 32 = x.toNat) ∧
    (∃ v x, Native.multiply.value? [-3, 4294967297] = some v ∧ v = 4294967293 ∧
      Native.multiply.onBits? [4294967293, 1] = some x ∧ v = x.toNat) ∧
    ∃ v x, Native.or.value? [4042322160, 252645135] = some v ∧ v = 4294967295 ∧
      Native.or.onBits? [4042322160, 252645135] = some x ∧ v = x.toNat := by
  refine ⟨?_, ?_, ?_⟩
  · obtain ⟨v, x, hv, hx, hrem, -, -⟩ :=
      value?_onBits (n := .xor) (by decide) (by decide) [-1, 1099511627781] rfl
    exact ⟨v, x, hv, Option.some.inj (hv.symm.trans (by decide)), hx, hrem⟩
  · obtain ⟨v, x, hv, hx, -, hself, -⟩ :=
      value?_onBits (n := .multiply) (by decide) (by decide) [-3, 4294967297] rfl
    exact ⟨v, x, hv, Option.some.inj (hv.symm.trans (by decide)), hx, hself (by decide)⟩
  · obtain ⟨v, x, hv, hx, -, -, hself⟩ :=
      value?_onBits (n := .or) (by decide) (by decide) [4042322160, 252645135] rfl
    exact ⟨v, x, hv, Option.some.inj (hv.symm.trans (by decide)), hx,
      hself (by decide) (by decide)⟩

end Native

end Wordlet
