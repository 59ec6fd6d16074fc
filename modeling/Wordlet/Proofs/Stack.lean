import Wordlet.Proofs.Evaluation

/-!
# The stack

The stack bounds how long an evaluation can go on, and nothing else: an evaluation that did not use
up its stack has the same outcome with any larger one.

* `Outcome.Settles`: two outcomes are the same unless the first has used up the stack.
* `Outcome.unguarded_of_not_exhausted`: only an outcome that has used up the stack needs a guard.
* `Expr.eval_settles`: **more stack changes no outcome that did not use it up.**
-/

namespace Wordlet

namespace Outcome

variable {α β : Type}

/-- The stack was used up. -/
def Exhausted (o : Outcome α) : Prop := o.result = .error ⟨.stackExhausted, none⟩

/-- The second outcome is the first, unless the first has used up the stack. -/
def Settles (o o' : Outcome α) : Prop := ¬o.Exhausted → o' = o

theorem Settles.refl (o : Outcome α) : o.Settles o := fun _ => rfl

theorem Settles.andThen {o o' : Outcome α} {f f' : α → Outcome β} (ho : o.Settles o')
    (hf : ∀ a, (f a).Settles (f' a)) : (o.andThen f).Settles (o'.andThen f') := by
  intro hne
  cases hr : o.result with
  | error e =>
    rw [andThen_of_error hr] at hne
    -- the error of the first part is that of the whole
    have hfirst : ¬o.Exhausted := by
      intro hex
      unfold Exhausted at hex
      rw [hr] at hex
      cases hex
      exact hne rfl
    rw [ho hfirst, andThen_of_error hr, andThen_of_error hr]
  | ok a =>
    rw [andThen_of_ok hr] at hne
    have hfirst : ¬o.Exhausted := by
      unfold Exhausted
      rw [hr]
      simp
    have hsecond : ¬(f a).Exhausted := hne
    rw [ho hfirst, andThen_of_ok hr, andThen_of_ok hr, hf a hsecond]

theorem Settles.ofCall {o o' : Outcome (Option Int)} (ho : o.Settles o') (loc : Option Location)
    (f : String) (args : List Int) : (ofCall loc f args o).Settles (ofCall loc f args o') := by
  intro hne
  have hinner : ¬o.Exhausted := hne
  rw [ho hinner]

theorem settles_of_exhausted (o' : Outcome α) : (fault none .stackExhausted).Settles o' :=
  fun hne => absurd rfl hne

theorem Exhausted.andThen {o : Outcome α} (h : o.Exhausted) (f : α → Outcome β) :
    (o.andThen f).Exhausted := by
  rw [Exhausted, andThen_of_error h]

/-- If the stack is used up in a part that comes after another, it is used up in both together,
also with less of it in the first. -/
theorem Settles.exhausted_andThen {o o' : Outcome α} (h : o.Settles o') {a : α}
    (ha : o'.result = .ok a) {f : α → Outcome β} (hf : (f a).Exhausted) :
    (o.andThen f).Exhausted := by
  by_cases hex : o.Exhausted
  · exact hex.andThen f
  · rw [h hex] at ha
    rw [andThen_of_ok ha]
    exact hf

/-- Without a guard, an outcome that has used up the stack fails for that reason. -/
theorem Exhausted.result_unguarded {o : Outcome α} (h : o.Exhausted) :
    o.unguarded.result = .error ⟨.stackOverflow, none⟩ := by
  unfold Exhausted at h
  unfold unguarded
  rw [h]
  rfl

/-- Any other outcome needs no guard. -/
theorem unguarded_of_not_exhausted {o : Outcome α} (h : ¬o.Exhausted) : o.unguarded = o := by
  obtain ⟨acts, result⟩ := o
  cases result with
  | ok a => rfl
  | error e =>
    have hne : e ≠ ⟨.stackExhausted, none⟩ := by
      rintro rfl
      exact h rfl
    have he : e.unguarded = e := by
      unfold EvalError.unguarded
      exact if_neg hne
    show (⟨acts, .error e.unguarded⟩ : Outcome α) = _
    rw [he]

theorem simulation_settles : Simulation Settles where
  value _ := .refl _
  fault _ _ := .refl _
  write _ := .refl _
  andThen := .andThen

end Outcome

namespace Expr

open Outcome

/-- **More stack changes no outcome that did not use it up.** -/
theorem eval_settles (cx : Context) {stack stack' : Nat} (hle : stack ≤ stack') (depth : Nat)
    (frame : Frame) (e : Expr) :
    (eval cx stack depth frame e).Settles (eval cx stack' depth frame e) := by
  induction stack using Nat.strongRecOn generalizing stack' depth frame e with
  | ind stack ih =>
    by_cases hstack : stack < 2
    · rw [eval_exhausted hstack]
      exact settles_of_exhausted _
    obtain ⟨stack, rfl⟩ : ∃ n, stack = n + 2 := ⟨stack - 2, by omega⟩
    obtain ⟨stack', rfl⟩ : ∃ n, stack' = n + 2 := ⟨stack' - 2, by omega⟩
    have hle' : stack ≤ stack' := by omega
    refine simulation_settles.eval_step (fun e => ih stack (by omega) hle' depth frame e) ?_ e
    intro loc f args
    unfold invoke
    split
    · exact .refl _
    refine Settles.ofCall ?_ loc f args
    unfold callee
    split
    · exact .refl _
    split
    · exact .refl _
    split
    · exact .refl _
    cases stack with
    | zero => exact settles_of_exhausted _
    | succ stack =>
      obtain ⟨stack', rfl⟩ : ∃ n, stack' = n + 1 := ⟨stack' - 1, by omega⟩
      exact ih stack (by omega) (by omega) (depth + 1) _ _

end Expr

end Wordlet
