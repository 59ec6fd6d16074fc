import Wordlet.Proofs.Brackets

/-!
# Calls are transparent

What a call does depends on the function and its arguments alone. It does not depend on who makes
it, how deep it is, what was done before, or what the depth limit is: a call that returns does the
same wherever it is made.

* `Outcome.Returns`: the second outcome is the first, if this has a value. It is a `Simulation`.
* `Expr.eval_returns`, `Expr.callee_returns`: **an evaluation that gives a value gives it at any
  depth, with any larger stack and without a limit.**
* `Act.events_add`: the events of acts at another depth are the same events, moved.
* `Program.run_transparent`: **two calls of one function with the same arguments that return do the
  same**, in one run or in two runs under different limits.
-/

namespace Wordlet

/-! ## Evaluations that give a value -/

namespace Outcome

variable {α β : Type}

/-- The second outcome is the first, if this has a value. -/
def Returns (o o' : Outcome α) : Prop := ∀ v, o.result = .ok v → o' = o

theorem Returns.refl (o : Outcome α) : o.Returns o := fun _ _ => rfl

theorem Returns.of_error {o o' : Outcome α} {e : EvalError} (h : o.result = .error e) :
    o.Returns o' := by
  intro v hv
  rw [h] at hv
  cases hv

theorem Returns.andThen {o o' : Outcome α} {f f' : α → Outcome β} (ho : o.Returns o')
    (hf : ∀ a, (f a).Returns (f' a)) : (o.andThen f).Returns (o'.andThen f') := by
  intro v hv
  cases hr : o.result with
  | error e =>
    rw [andThen_of_error hr] at hv
    cases hv
  | ok a =>
    rw [andThen_of_ok hr] at hv ⊢
    rw [ho a hr, andThen_of_ok hr, hf a v hv]

theorem Returns.ofCall {o o' : Outcome (Option Int)} (ho : o.Returns o') (loc : Option Location)
    (f : String) (args : List Int) : (ofCall loc f args o).Returns (ofCall loc f args o') := by
  intro v hv
  have hv' : o.result = .ok v := hv
  rw [ho v hv']

theorem simulation_returns : Simulation Returns where
  value _ := .refl _
  fault _ _ := .refl _
  write _ := .refl _
  andThen := .andThen

end Outcome

/-- A native that returns does the same wherever it is called. -/
theorem Native.outcome_returns (n : Native) (loc loc' : Option Location) (args : List Int) :
    (n.outcome loc args).Returns (n.outcome loc' args) := by
  unfold outcome
  split
  · exact .of_error rfl
  · exact .refl _

namespace Expr

open Outcome

/-- The inside of a call, if evaluations with less stack give their values at any depth, with any
larger stack and without a limit. -/
theorem callee_returns {table : Table} {maxDepth : Option Int} {stack stack' : Nat}
    (hle : stack ≤ stack')
    (ih : ∀ s < stack, ∀ s', s ≤ s' → ∀ depth depth' frame e,
      (eval ⟨table, maxDepth⟩ s depth frame e).Returns (eval ⟨table, none⟩ s' depth' frame e))
    (depth depth' : Nat) (loc loc' : Option Location) (f : String) (args : List Int) :
    (callee ⟨table, maxDepth⟩ stack depth loc f args).Returns
      (callee ⟨table, none⟩ stack' depth' loc' f args) := by
  unfold callee
  cases Native.find? f with
  | some n => exact n.outcome_returns loc loc' args
  | none =>
    dsimp only
    cases table.find? f with
    | none => exact .of_error rfl
    | some g =>
      dsimp only
      by_cases harity : g.arity ≠ args.length
      · rw [if_pos harity]
        exact .of_error rfl
      rw [if_neg harity, if_neg harity]
      cases stack with
      | zero => exact .of_error rfl
      | succ stack =>
        obtain ⟨stack', rfl⟩ : ∃ n, stack' = n + 1 := ⟨stack' - 1, by omega⟩
        exact ih stack (Nat.lt_succ_self _) stack' (by omega) (depth + 1) (depth' + 1) _ _

/-- **An evaluation that gives a value gives it at any depth, with any larger stack and without a
limit.** -/
theorem eval_returns (table : Table) (maxDepth : Option Int) (stack stack' : Nat)
    (hle : stack ≤ stack') (depth depth' : Nat) (frame : Frame) (e : Expr) :
    (eval ⟨table, maxDepth⟩ stack depth frame e).Returns
      (eval ⟨table, none⟩ stack' depth' frame e) := by
  induction stack using Nat.strongRecOn generalizing stack' depth depth' frame e with
  | ind stack ih =>
    by_cases hstack : stack < 2
    · rw [eval_exhausted hstack]
      exact .of_error rfl
    obtain ⟨stack, rfl⟩ : ∃ n, stack = n + 2 := ⟨stack - 2, by omega⟩
    obtain ⟨stack', rfl⟩ : ∃ n, stack' = n + 2 := ⟨stack' - 2, by omega⟩
    refine simulation_returns.eval_step
      (fun e => ih stack (by omega) stack' (by omega) depth depth' frame e) ?_ e
    intro loc f args
    unfold invoke
    split
    · exact .of_error rfl
    -- without a limit no call is forbidden
    rw [if_neg (by simp [Context.forbids])]
    refine Returns.ofCall ?_ loc f args
    exact callee_returns (by omega) (fun s hs s' hs' => ih s (by omega) s' hs') depth depth' loc loc
      f args

/-- Two calls of a function with the same arguments that return do the same. -/
theorem callee_unique {table : Table} {maxDepth maxDepth' : Option Int}
    {stack stack' depth depth' : Nat} {loc loc' : Option Location} {f : String} {args : List Int}
    {acts acts' : List Act} {v v' : Option Int}
    (h : callee ⟨table, maxDepth⟩ stack depth loc f args = ⟨acts, .ok v⟩)
    (h' : callee ⟨table, maxDepth'⟩ stack' depth' loc' f args = ⟨acts', .ok v'⟩) :
    acts = acts' ∧ v = v' := by
  -- both do what the call does without a limit and with the larger of the two stacks
  have hfirst := callee_returns (Nat.le_max_left stack stack')
    (fun s _ => eval_returns table maxDepth s) depth 0 loc none f args
  have hsecond := callee_returns (Nat.le_max_right stack stack')
    (fun s _ => eval_returns table maxDepth' s) depth' 0 loc' none f args
  rw [h] at hfirst
  rw [h'] at hsecond
  have heq := (hfirst v rfl).symm.trans (hsecond v' rfl)
  cases heq
  exact ⟨rfl, rfl⟩

end Expr

/-! ## Traces at other depths -/

/-- The event, `n` calls deeper. -/
def Event.deepen (n : Nat) : Event → Event
  | enter f k args loc => enter f (k + n) args loc
  | exit f k result => exit f (k + n) result

namespace Act

mutual

theorem eventsOf_add (n depth : Nat) :
    ∀ a : Act, a.eventsOf (depth + n) = (a.eventsOf depth).map (Event.deepen n)
  | .write v => rfl
  | .call loc f args inner ending => by
    have hinner := events_add n (depth + 1) inner
    rw [Nat.add_right_comm] at hinner
    cases ending with
    | returned v => simp [eventsOf, exitEvent, hinner, Event.deepen, Nat.add_right_comm]
    | cutShort => simp [eventsOf, exitEvent, hinner, Event.deepen, Nat.add_right_comm]

/-- The events of acts at another depth are the same events, moved. -/
theorem events_add (n depth : Nat) :
    ∀ as : List Act, events (depth + n) as = (events depth as).map (Event.deepen n)
  | [] => rfl
  | a :: as => by
    rw [events, events, eventsOf_add n depth a, events_add n depth as, List.map_append]

end

end Act

/-! ## Completed calls -/

/-- The trace has a call of `f` with the arguments `args` at depth `k` that was completed with
`result`: its beginning and its end match, and `inner` is between them. -/
def Completed (trace : List Moment) (f : String) (args : List Int) (k : Nat) (inner : List Moment)
    (result : Option Int) : Prop :=
  ∃ before loc k' after,
    trace = before ++ .boundary (.enter f k args loc) ::
      (inner ++ .boundary (.exit f k' result) :: after) ∧
    WellNested (inner.filterMap Moment.event?)

/-- A beginning and an end that match among the events of acts are those of a completed call. -/
theorem Completed.of_events {acts : List Act} {before inner after : List Event} {f : String}
    {k k' : Nat} {args : List Int} {loc : Option Location} {result : Option Int}
    (h : Act.events 0 acts = before ++ .enter f k args loc :: (inner ++ .exit f k' result :: after))
    (hinner : WellNested inner) :
    ∃ moments, Completed (Act.trace 0 acts) f args k moments result ∧
      moments.filterMap Moment.event? = inner := by
  rw [← Act.filterMap_event_trace] at h
  obtain ⟨before', rest, htrace, -, hrest⟩ := Moment.exists_of_events h
  obtain ⟨moments, after', rfl, rfl, -⟩ := Moment.exists_of_events hrest
  exact ⟨moments, ⟨before', loc, k', after', htrace, hinner⟩, rfl⟩

/-- **Calls are transparent.** Take two completed calls of one function with the same arguments, in
one run of a program or in two runs under different limits, each with what is between its beginning
and its end. They have the same result; their events are the same once each call is moved to the
depth of the other; and they write the same values. -/
theorem Program.run_transparent (p : Program) {maxDepth maxDepth' : Option Int} {f : String}
    {args : List Int} {k k' : Nat} {inner inner' : List Moment} {result result' : Option Int}
    (h : Completed (Act.trace 0 (p.run maxDepth).outcome.acts) f args k inner result)
    (h' : Completed (Act.trace 0 (p.run maxDepth').outcome.acts) f args k' inner' result') :
    result = result' ∧
      (inner.filterMap Moment.event?).map (Event.deepen k') =
        (inner'.filterMap Moment.event?).map (Event.deepen k) ∧
      inner.filterMap Moment.written? = inner'.filterMap Moment.written? := by
  obtain ⟨before, loc, j, after, htrace, hinner⟩ := h
  obtain ⟨before', loc', j', after', htrace', hinner'⟩ := h'
  obtain ⟨ended, hacts, -⟩ := p.run_orderly maxDepth
  obtain ⟨ended', hacts', -⟩ := p.run_orderly maxDepth'
  obtain ⟨stack, depth, acts, -, hcallee, rfl, -⟩ := hacts.matched htrace hinner
  obtain ⟨stack', depth', acts', -, hcallee', rfl, -⟩ := hacts'.matched htrace' hinner'
  obtain ⟨rfl, rfl⟩ := Expr.callee_unique hcallee hcallee'
  refine ⟨rfl, ?_, ?_⟩
  · rw [Act.filterMap_event_trace, Act.filterMap_event_trace, ← Act.events_add, ← Act.events_add,
      Nat.add_comm]
  · rw [Act.filterMap_written_trace, Act.filterMap_written_trace]

/-- A function that is called with one argument at depth one, and by another function at depth two
under a limit, does the same. -/
theorem Program.run_transparent_shared :
    ∃ (p : Program) (inner inner' : List Moment),
      Completed (Act.trace 0 (p.run none).outcome.acts) "double" [3] 1 inner (some 6) ∧
      Completed (Act.trace 0 (p.run (some 3)).outcome.acts) "double" [3] 2 inner' (some 6) ∧
      (inner.filterMap Moment.event?).map (Event.deepen 2) =
        (inner'.filterMap Moment.event?).map (Event.deepen 1) := by
  let x : Expr := .var none "x"
  let p : Program := ⟨none,
    [⟨none, "double", [⟨none, "x"⟩], .call none "add" [x, x]⟩,
      ⟨none, "pass", [⟨none, "x"⟩], .call none "double" [x]⟩,
      ⟨none, "main", [], .call none "add"
        [.call none "double" [.literal none 3], .call none "pass" [.literal none 3]]⟩]⟩
  have hsum : ∀ k, WellNested [.enter "add" k [3, 3] none, .exit "add" k (some 6)] :=
    fun _ => .call .nil .nil
  have hfirst : Act.events 0 (p.run none).outcome.acts =
      [] ++ .enter "double" 1 [3] none ::
        ([.enter "add" 2 [3, 3] none, .exit "add" 2 (some 6)] ++ .exit "double" 1 (some 6) ::
          (Act.events 0 (p.run none).outcome.acts).drop 4) := by decide +kernel
  have hsecond : Act.events 0 (p.run (some 3)).outcome.acts =
      (Act.events 0 (p.run (some 3)).outcome.acts).take 5 ++ .enter "double" 2 [3] none ::
        ([.enter "add" 3 [3, 3] none, .exit "add" 3 (some 6)] ++ .exit "double" 2 (some 6) ::
          (Act.events 0 (p.run (some 3)).outcome.acts).drop 9) := by decide +kernel
  obtain ⟨inner, hinner, -⟩ := Completed.of_events hfirst (hsum 2)
  obtain ⟨inner', hinner', -⟩ := Completed.of_events hsecond (hsum 3)
  exact ⟨p, inner, inner', hinner, hinner', (p.run_transparent hinner hinner').2.1⟩

end Wordlet
