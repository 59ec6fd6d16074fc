import Wordlet.Proofs.Sessions

/-!
# Frames are substitutions

A frame gives values to the variables of an expression. To evaluate the expression in the frame is
to put the values in the places of the variables and to evaluate what comes out without any
bindings. The name of the function stays, since the error of an unbound variable shows it.

* `Frame.get?_ofBindings`: of a name that is bound twice, the last value counts.
* `Expr.eval_subst`: **frames are substitutions**, for the outcome as a whole: the value or the
  error with its place, and everything that happens.
* `Expr.eval_call_closed`: once its arguments have values, a call does not depend on the frame that
  it is made in.
* `Expr.eval_eq_subst`: both, and the same of the steps of a session.
-/

namespace Wordlet

/-- The value that a name has after bindings that are made in turn: the last one counts. -/
def lastValue? (bindings : List (String × Int)) (x : String) : Option Int :=
  ((bindings.filter (·.1 == x)).getLast?).map (·.2)

theorem Frame.get?_ofBindings (function : String) (bindings : List (String × Int)) (x : String) :
    (Frame.ofBindings function bindings).get? x = lastValue? bindings x := by
  unfold Frame.get? Frame.ofBindings lastValue?
  rw [← List.head?_filter, List.filter_reverse, List.head?_reverse]

namespace Expr

mutual

/-- The expression with a literal in the place of each variable that is bound. -/
def subst (bindings : List (String × Int)) : Expr → Expr
  | empty loc => empty loc
  | literal loc v => literal loc v
  | var loc x =>
    match lastValue? bindings x with
    | some v => literal loc v
    | none => var loc x
  | call loc f es => call loc f (substAll bindings es)
  | branch loc c t e => branch loc (c.subst bindings) (t.subst bindings) (e.subst bindings)
  | stray loc node es => stray loc node (substAll bindings es)

/-- `subst` on each expression of a list. -/
def substAll (bindings : List (String × Int)) : List Expr → List Expr
  | [] => []
  | e :: es => e.subst bindings :: substAll bindings es

end

/-- A literal stands where its variable stood. -/
theorem loc_subst (bindings : List (String × Int)) (e : Expr) : (e.subst bindings).loc = e.loc := by
  cases e with
  | var loc x =>
    rw [subst]
    cases lastValue? bindings x <;> rfl
  | empty | literal | call | branch | stray => rfl

theorem evalArguments_substAll {eval eval' : Expr → Outcome (Option Int)}
    {bindings : List (String × Int)} {f : String} {es : List Expr}
    (h : ∀ e ∈ es, eval e = eval' (e.subst bindings)) (index : Nat) :
    evalArguments eval f index es = evalArguments eval' f index (substAll bindings es) := by
  induction es generalizing index with
  | nil => rfl
  | cons e es ih =>
    obtain ⟨he, hes⟩ := List.forall_mem_cons.1 h
    rw [substAll, evalArguments, evalArguments, he, ih hes (index + 1), loc_subst]

variable (cx : Context) (stack depth : Nat)

/-- **Frames are substitutions.** The induction is on the stack. A call goes on in the frame of its
callee, which is the same on both sides. -/
theorem eval_subst (function : String) (bindings : List (String × Int)) (e : Expr) :
    e.eval cx stack depth (.ofBindings function bindings) =
      (e.subst bindings).eval cx stack depth (.ofBindings function []) := by
  induction stack using Nat.strongRecOn generalizing e with
  | ind stack ih =>
    by_cases hstack : stack < 2
    · rw [eval_exhausted hstack, eval_exhausted hstack]
    obtain ⟨stack, rfl⟩ : ∃ n, stack = n + 2 := ⟨stack - 2, by omega⟩
    have hparts := ih stack (by omega)
    cases e with
    | empty loc => rfl
    | literal loc v => rfl
    | var loc x =>
      rw [eval, Frame.lookup, Frame.get?_ofBindings, subst]
      cases lastValue? bindings x with
      | some v => rfl
      | none => rfl
    | call loc f es =>
      rw [subst, eval_call, eval_call, evalArguments_substAll fun e _ => hparts e]
    | branch loc c t e =>
      rw [subst, eval_branch, eval_branch, hparts c]
      congr 1
      funext v
      cases v with
      | none => rfl
      | some v => rw [choose, choose, hparts t, hparts e]
    | stray loc node es => rfl

theorem evalArguments_literals (frame : Frame) (f : String) (args : List Int) (index : Nat) :
    evalArguments (eval cx (stack + 2) depth frame) f index (args.map (literal none)) =
      .value args := by
  induction args generalizing index with
  | nil => rfl
  | cons v args ih => rw [List.map_cons, evalArguments, eval, Outcome.value_andThen, ih]; rfl

/-- **No call sees a binding of its caller.** Once its arguments have values, a call is made as it
would be with these values in any other frame. -/
theorem eval_call_closed (frame frame' : Frame) (loc : Option Location) (f : String)
    (es : List Expr) :
    (call loc f es).eval cx stack depth frame =
      (evalArguments (eval cx (stack - 2) depth frame) f 1 es).andThen fun args =>
        (call loc f (args.map (literal none))).eval cx stack depth frame' := by
  cases es with
  | nil =>
    rw [evalArguments, Outcome.value_andThen]
    by_cases hstack : stack < 2
    · rw [eval_exhausted hstack, eval_exhausted hstack]
    · obtain ⟨stack, rfl⟩ : ∃ n, stack = n + 2 := ⟨stack - 2, by omega⟩
      rw [eval_call, eval_call]
      rfl
  | cons e es =>
    by_cases hstack : stack < 4
    · -- the stack is used up before the first argument has a value
      have hfirst : evalArguments (eval cx (stack - 2) depth frame) f 1 (e :: es) =
          .fault none .stackExhausted := by
        rw [evalArguments, eval_exhausted (by omega), Outcome.fault_andThen]
      rw [hfirst, Outcome.fault_andThen]
      by_cases hless : stack < 2
      · rw [eval_exhausted hless]
      · obtain ⟨stack, rfl⟩ : ∃ n, stack = n + 2 := ⟨stack - 2, by omega⟩
        rw [Nat.add_sub_cancel] at hfirst
        rw [eval_call, hfirst, Outcome.fault_andThen]
    · obtain ⟨stack, rfl⟩ : ∃ n, stack = n + 4 := ⟨stack - 4, by omega⟩
      have hcall : ∀ args, (call loc f (args.map (literal none))).eval cx (stack + 4) depth frame' =
          invoke cx (stack + 2) depth loc f args := by
        intro args
        rw [eval_call, evalArguments_literals, Outcome.value_andThen]
      rw [eval_call, funext hcall]
      rfl

/-- **To evaluate in a frame is to substitute its values.** Let bindings be made in turn for a call
of `function`.

* A session answers a request to evaluate an expression in this frame as it does for the expression
  with the values in the places of the variables and a frame of the function without bindings: with
  the same result or error, the same output and the same events, and it is left in the same state.
* This holds of every evaluation, whatever the functions, the limit, the stack and the open calls.
* A call that is made in this frame depends on it through the values of its arguments only. -/
theorem eval_eq_subst (function : String) (bindings : List (String × Int)) (e : Expr) :
    (∀ m : Machine, m.answer (.ok (.evaluate e (.ofBindings function bindings))) =
      m.answer (.ok (.evaluate (e.subst bindings) (.ofBindings function [])))) ∧
    e.eval cx stack depth (.ofBindings function bindings) =
      (e.subst bindings).eval cx stack depth (.ofBindings function []) ∧
    ∀ (frame' : Frame) (loc : Option Location) (g : String) (es : List Expr),
      (call loc g es).eval cx stack depth (.ofBindings function bindings) =
        (evalArguments (eval cx (stack - 2) depth (.ofBindings function bindings)) g 1 es).andThen
          fun args => (call loc g (args.map (literal none))).eval cx stack depth frame' := by
  refine ⟨?_, eval_subst cx stack depth function bindings e, ?_⟩
  · intro m
    have hserve : ∀ (e : Expr) (frame : Frame),
        (Machine.serve (.evaluate e frame)).run.run m.clear = _ :=
      fun e frame => (Machine.does_exec m.clear.stack m.clear frame e).unguarded
    simp only [Machine.answer, hserve, eval_subst _ _ _ function bindings e]
  · intro frame' loc g es
    exact eval_call_closed cx stack depth (.ofBindings function bindings) frame' loc g es

end Expr

end Wordlet
