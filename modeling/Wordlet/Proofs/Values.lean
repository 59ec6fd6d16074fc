import Wordlet.Eval.Log
import Wordlet.Proofs.Evaluation
import Wordlet.Proofs.Spelling

/-!
# The values of a run

The values of a program whose literals are unsigned 32-bit integers are such integers too: natives
keep values in range, those that reduce nothing included. A text spells no other literals.

* `Native.inRange_of_value?`: natives keep values in range.
* `invariant_inRange`, `Program.run_inRange_of_literals`: **all values of a run are in range**,
  those of its acts included, and no value is too long to be written.
* `Program.run_values_inRange`: the same of what a run of a program that was read shows.
-/

namespace Wordlet

/-- An unsigned 32-bit integer. -/
def InRange (v : Int) : Prop := 0 ≤ v ∧ v ≤ 4294967295

theorem InRange.exists_nat {v : Int} (h : InRange v) : ∃ n : Nat, v = n ∧ n < 4294967296 := by
  obtain ⟨n, rfl⟩ := Int.eq_ofNat_of_zero_le h.1
  have hle := h.2
  exact ⟨n, rfl, by omega⟩

theorem inRange_natCast {n : Nat} (h : n < 4294967296) : InRange (n : Int) := by
  unfold InRange
  omega

theorem InRange.hasDecimal {v : Int} (h : InRange v) : Text.hasDecimal v = true := by
  obtain ⟨n, rfl, hn⟩ := h.exists_nat
  refine Text.hasDecimal_of_natAbs_lt ?_
  rw [Int.natAbs_natCast]
  omega

theorem inRange_reduce (a : Int) : InRange (Native.reduce a) := by
  unfold Native.reduce Native.modulus InRange
  omega

theorem inRange_or {a b : Int} (ha : InRange a) (hb : InRange b) : InRange (Bits.or a b) := by
  obtain ⟨m, rfl, hm⟩ := ha.exists_nat
  obtain ⟨n, rfl, hn⟩ := hb.exists_nat
  exact inRange_natCast (Nat.or_lt_two_pow (n := 32) hm hn)

theorem inRange_and {a b : Int} (ha : InRange a) (hb : InRange b) : InRange (Bits.and a b) := by
  obtain ⟨m, rfl, hm⟩ := ha.exists_nat
  obtain ⟨n, rfl, hn⟩ := hb.exists_nat
  exact inRange_natCast (Nat.and_lt_two_pow (n := 32) m hn)

theorem inRange_xor {a b : Int} (ha : InRange a) (hb : InRange b) : InRange (Bits.xor a b) := by
  obtain ⟨m, rfl, hm⟩ := ha.exists_nat
  obtain ⟨n, rfl, hn⟩ := hb.exists_nat
  exact inRange_natCast (Nat.xor_lt_two_pow (n := 32) hm hn)

/-- **Natives keep values in range**, also those that reduce nothing. -/
theorem Native.inRange_of_value? {n : Native} {args : List Int} (hargs : ∀ v ∈ args, InRange v)
    {v : Int} (h : n.value? args = some v) : InRange v := by
  unfold Native.value? at h
  -- the bitwise ones reduce nothing, since bits of values in range are in range
  split at h <;> cases h
  · exact inRange_or (hargs _ (.head _)) (hargs _ (.tail _ (.head _)))
  · exact inRange_and (hargs _ (.head _)) (hargs _ (.tail _ (.head _)))
  · exact inRange_xor (hargs _ (.head _)) (hargs _ (.tail _ (.head _)))
  · exact inRange_reduce _
  · unfold InRange
    split <;> omega
  · exact inRange_reduce _
  · exact inRange_reduce _
  · exact inRange_reduce _
  · exact hargs _ (.head _)

/-! ## Acts and outcomes -/

mutual

/-- All values of an act are in range. -/
def Act.InRange : Act → Prop
  | .write v => Wordlet.InRange v
  | .call _ _ args inner ending =>
    (∀ v ∈ args, Wordlet.InRange v) ∧ Act.InRangeAll inner ∧
      ∀ v, ending = .returned (some v) → Wordlet.InRange v

/-- All values of the acts are in range. -/
def Act.InRangeAll : List Act → Prop
  | [] => True
  | a :: as => a.InRange ∧ Act.InRangeAll as

end

theorem Act.inRangeAll_iff {as : List Act} : Act.InRangeAll as ↔ ∀ a ∈ as, a.InRange := by
  induction as with
  | nil => simp [Act.InRangeAll]
  | cons a as ih => simp [Act.InRangeAll, ih]

/-- The values that an event shows are in range. -/
def Event.InRange : Event → Prop
  | .enter _ _ args _ => ∀ v ∈ args, Wordlet.InRange v
  | .exit _ _ result => ∀ v ∈ result, Wordlet.InRange v

mutual

theorem Act.InRange.event {a : Act} (h : a.InRange) (depth : Nat) :
    ∀ e ∈ a.eventsOf depth, e.InRange := by
  intro e he
  match a with
  | .write _ => cases he
  | .call loc f args inner ending =>
    obtain ⟨hargs, hinner, hend⟩ := h
    rw [eventsOf, List.mem_cons, List.mem_append] at he
    rcases he with rfl | he | he
    · exact hargs
    · exact Act.InRangeAll.event hinner (depth + 1) e he
    · cases ending with
      | returned w =>
        obtain rfl := List.mem_singleton.1 he
        rintro v rfl
        exact hend v rfl
      | cutShort => cases he

/-- The events of acts show values in range if the acts have no others. -/
theorem Act.InRangeAll.event {as : List Act} (h : Act.InRangeAll as) (depth : Nat) :
    ∀ e ∈ Act.events depth as, e.InRange := by
  intro e he
  match as with
  | [] => cases he
  | a :: as =>
    rcases List.mem_append.1 he with he | he
    · exact Act.InRange.event h.1 depth e he
    · exact Act.InRangeAll.event h.2 depth e he

end

mutual

theorem Act.InRange.written {a : Act} (h : a.InRange) :
    ∀ v ∈ a.writtenBy, Wordlet.InRange v := by
  intro v hv
  match a with
  | .write w =>
    obtain rfl := List.mem_singleton.1 hv
    exact h
  | .call loc f args inner ending => exact Act.InRangeAll.written h.2.1 v hv

/-- The values that acts write are in range if the acts have no others. -/
theorem Act.InRangeAll.written {as : List Act} (h : Act.InRangeAll as) :
    ∀ v ∈ Act.written as, Wordlet.InRange v := by
  intro v hv
  match as with
  | [] => cases hv
  | a :: as =>
    rcases List.mem_append.1 hv with hv | hv
    · exact Act.InRange.written h.1 v hv
    · exact Act.InRangeAll.written h.2 v hv

end

/-- The values that a frame binds are in range. -/
def Frame.InRange (frame : Frame) : Prop := ∀ x v, frame.get? x = some v → Wordlet.InRange v

theorem Frame.inRange_nil (function : String) : (Frame.ofBindings function []).InRange := by
  intro x v h
  cases h

mutual

/-- All literals of an expression are in range. -/
def Expr.LiteralsInRange : Expr → Prop
  | .literal _ v => Wordlet.InRange v
  | .call _ _ es => Expr.LiteralsInRangeAll es
  | .branch _ c t e => c.LiteralsInRange ∧ t.LiteralsInRange ∧ e.LiteralsInRange
  | _ => True

/-- All literals of the expressions are in range. -/
def Expr.LiteralsInRangeAll : List Expr → Prop
  | [] => True
  | e :: es => e.LiteralsInRange ∧ Expr.LiteralsInRangeAll es

end

theorem Expr.literalsInRangeAll_iff {es : List Expr} :
    Expr.LiteralsInRangeAll es ↔ ∀ e ∈ es, e.LiteralsInRange := by
  induction es with
  | nil => simp [Expr.LiteralsInRangeAll]
  | cons e es ih => simp [Expr.LiteralsInRangeAll, ih]

/-- A text spells no literal out of range. -/
theorem Expr.SpellableBlock.literalsInRange {e : Expr} (h : e.SpellableBlock) :
    e.LiteralsInRange := by
  induction e using Expr.induction with
  | empty loc => trivial
  | literal loc v => exact h.spellable rfl
  | var loc x => trivial
  | call loc f es ih =>
    have hes := Expr.spellableAll_iff.1 (h.spellable rfl).2.2
    exact Expr.literalsInRangeAll_iff.2 fun e he => ih e he (.inr (hes e he))
  | branch loc c t e hc ht he =>
    obtain ⟨hc', ht', he'⟩ := h.spellable rfl
    exact ⟨hc (.inr hc'), ht ht', he he'⟩
  | stray loc node es ih => trivial

/-- The values of an evaluation are in range if the literals of all functions are. -/
theorem invariant_inRange {cx : Context}
    (hcx : ∀ f d, cx.table.find? f = some d → d.body.LiteralsInRange) :
    Invariant cx (fun frame e => frame.InRange ∧ e.LiteralsInRange) InRange Act.InRange
      (fun err => err.fault ≠ .numberTooLong) where
  exhausted := by simp
  literal h := h.2
  var h := ⟨fun v hv => h.1 _ v hv, by simp⟩
  branch h := by
    obtain ⟨hframe, hc, ht, he⟩ := h
    exact ⟨⟨hframe, hc⟩, ⟨hframe, ht⟩, ⟨hframe, he⟩, by simp⟩
  call h := by
    obtain ⟨hframe, hes⟩ := h
    have hes := Expr.literalsInRangeAll_iff.1 hes
    exact ⟨fun e hmem => ⟨⟨hframe, hes e hmem⟩, by simp⟩, by simp⟩
  stray _ := Stray.outcome_holds (by simp) (by simp) (by simp)
  native _ _ hargs _ := by
    refine Native.outcome_holds ?_ (by simp) ?_
    · intro v hv
      exact ⟨Native.inRange_of_value? hargs hv, Native.inRange_of_value? hargs hv⟩
    · intro v hv hlong
      rw [(Native.inRange_of_value? hargs hv).hasDecimal] at hlong
      cases hlong
  unknown _ _ _ := by simp
  arity _ _ _ _ := by simp
  body hd _ hargs := ⟨fun x v hv => hargs v (Definition.mem_of_get?_frame hv), hcx _ _ hd⟩
  called hargs hinner hend := ⟨hargs, Act.inRangeAll_iff.2 hinner, hend⟩

/-- **All values of a run are in range** if all literals of the program are. -/
theorem Program.run_inRange_of_literals {p : Program}
    (hp : ∀ d ∈ p.definitions, d.body.LiteralsInRange) (maxDepth : Option Int) :
    (p.run maxDepth).outcome.Holds Act.InRange (fun v => ∀ x ∈ v, InRange x)
      (fun err => err.fault ≠ .numberTooLong) := by
  have hbody : ∀ f d, p.table.find? f = some d → d.body.LiteralsInRange :=
    fun f d hd => hp d (Program.find?_table hd).1
  have hinv : Invariant ⟨p.table, maxDepth⟩ _ _ _ _ := invariant_inRange hbody
  refine Program.run_holds (by simp) (by simp) (by simp) ?_
  intro d hd _ stack
  exact hinv.eval stack 0 _ _ ⟨Frame.inRange_nil _, hbody _ d hd⟩

/-- All values of a run of a program that a text can spell are in range. -/
theorem Program.run_inRange {p : Program} (hp : ∀ d ∈ p.definitions, d.Spellable)
    (maxDepth : Option Int) :
    (p.run maxDepth).outcome.Holds Act.InRange (fun v => ∀ x ∈ v, InRange x)
      (fun err => err.fault ≠ .numberTooLong) :=
  Program.run_inRange_of_literals (fun d hd => (hp d hd).2.2.literalsInRange) maxDepth

/-- The bitwise natives, `equal` and `print` reduce nothing: they give back integers of any size,
and `equal` tells integers apart that have the same remainder. -/
theorem Native.value?_unreduced (v : Int) :
    Native.or.value? [v, v] = some v ∧ Native.and.value? [v, v] = some v ∧
      Native.xor.value? [v, 0] = some v ∧ Native.print.value? [v] = some v ∧
      Native.equal.value? [v, v + Native.modulus] = some 0 := by
  have hor : Bits.or v v = v := by cases v <;> simp [Bits.or]
  have hand : Bits.and v v = v := by cases v <;> simp [Bits.and]
  have hxor : Bits.xor v 0 = v := by
    cases v with
    | ofNat n => exact congrArg Int.ofNat (Nat.xor_zero n)
    | negSucc n => exact congrArg Int.negSucc (Nat.xor_zero n)
  have hequal : v ≠ v + Native.modulus := by
    unfold Native.modulus
    omega
  exact ⟨congrArg some hor, congrArg some hand, congrArg some hxor, rfl,
    congrArg some (if_neg hequal)⟩

/-- **Every value of a running program is an unsigned 32-bit integer.** Let a program be read from
any text and run under any limit, to its end or to an error. The arguments at the beginnings of
calls, the results at their ends, the values written and the value of the run are in range, although
some natives reduce nothing. -/
theorem Program.run_values_inRange {source path : String} {p : Program}
    (hp : Program.parse (Token.scan source path) = .ok p) (maxDepth : Option Int) :
    (∀ f depth args loc, .enter f depth args loc ∈ (p.run maxDepth).events →
      ∀ v ∈ args, 0 ≤ v ∧ v ≤ 4294967295) ∧
    (∀ f depth v, .exit f depth (some v) ∈ (p.run maxDepth).events → 0 ≤ v ∧ v ≤ 4294967295) ∧
    (∃ values : List Int, (p.run maxDepth).output = values.map Text.decimal ∧
      ∀ v ∈ values, 0 ≤ v ∧ v ≤ 4294967295) ∧
    (∀ v, (p.run maxDepth).outcome.result = .ok (some v) → 0 ≤ v ∧ v ≤ 4294967295) ∧
    ∀ v : Int, Native.or.value? [v, v] = some v ∧ Native.and.value? [v, v] = some v ∧
      Native.xor.value? [v, 0] = some v ∧ Native.print.value? [v] = some v ∧
      Native.equal.value? [v, v + Native.modulus] = some 0 := by
  have hrun := Program.run_inRange (Program.spellable_of_parse hp) maxDepth
  have hacts := Act.inRangeAll_iff.2 hrun.acts
  refine ⟨?_, ?_, ⟨_, rfl, hacts.written⟩, ?_, Native.value?_unreduced⟩
  · intro f depth args loc he
    exact hacts.event 0 _ he
  · intro f depth v he
    exact hacts.event 0 _ he v rfl
  · intro v hv
    exact hrun.ok _ hv v rfl

/-- A run that wraps below zero, hands on what `or` makes of that, writes it and then fails. -/
theorem Program.run_values_inRange_wrapped :
    ∃ p, Program.parse (Token.scan
        "main() \x7b f(or(sub(0 1) 8)) \x7d f(x) \x7b g(print(x)) \x7d" "s") = .ok p ∧
      (p.run none).outcome.result = .error ⟨.argumentWithoutValue 1 "g", some ⟨"s", 1, 39⟩⟩ ∧
      .exit "or" 1 (some 4294967295) ∈ (p.run none).events ∧
      (∀ f depth v, .exit f depth (some v) ∈ (p.run none).events → 0 ≤ v ∧ v ≤ 4294967295) ∧
      (p.run none).output = ["4294967295"] := by
  have hexit : ∀ p, Program.parse (Token.scan
        "main() \x7b f(or(sub(0 1) 8)) \x7d f(x) \x7b g(print(x)) \x7d" "s") = .ok p →
      ∀ f depth v, .exit f depth (some v) ∈ (p.run none).events → 0 ≤ v ∧ v ≤ 4294967295 :=
    fun p hp => (run_values_inRange hp none).2.1
  refine ⟨⟨some ⟨"s", 1, 1⟩,
    [⟨some ⟨"s", 1, 1⟩, "main", [], .call (some ⟨"s", 1, 10⟩) "f"
        [.call (some ⟨"s", 1, 12⟩) "or" [.call (some ⟨"s", 1, 15⟩) "sub"
          [.literal (some ⟨"s", 1, 19⟩) 0, .literal (some ⟨"s", 1, 21⟩) 1],
          .literal (some ⟨"s", 1, 24⟩) 8]]⟩,
      ⟨some ⟨"s", 1, 30⟩, "f", [⟨some ⟨"s", 1, 32⟩, "x"⟩], .call (some ⟨"s", 1, 37⟩) "g"
        [.call (some ⟨"s", 1, 39⟩) "print" [.var (some ⟨"s", 1, 45⟩) "x"]]⟩]⟩,
    ?_, ?_, ?_, hexit _ ?_, ?_⟩
  · cbv
  · decide +kernel
  · decide +kernel
  · cbv
  · decide +kernel

end Wordlet
