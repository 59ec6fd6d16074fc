import Mathlib.Control.Monad.Basic
import Wordlet.Proofs.Stack

/-!
# A depth limit only cuts a run short

Two runs of one program under different depth limits go the same way until the first of them makes a
call that its limit forbids. There it ends, and what it did until then is what the other run did
before it entered this call.

What an evaluation does is told in one line by its trace, in which the values that are written stand
between the boundaries of calls (`Act.trace`).

* `Act.filterMap_event_trace`, `Act.filterMap_written_trace`: the events and the values written are
  those of the trace.
* `Outcome.Truncated`: one outcome is another one, or is cut from it at a call. It is a
  `Simulation`.
* `Expr.eval_truncated`: **an evaluation under a smaller limit is cut from the one under a larger
  limit.**
* `Program.run_truncated`: the same of runs.
-/

namespace Wordlet

/-! ## Traces -/

/-- A moment of an evaluation: a value is written, or a call begins or ends. -/
inductive Moment where
  | write (value : Int)
  | boundary (event : Event)
deriving DecidableEq, Repr, Inhabited

namespace Moment

/-- The value that is written. -/
def written? : Moment → Option Int
  | write v => some v
  | boundary _ => none

/-- The boundary of a call. -/
def event? : Moment → Option Event
  | write _ => none
  | boundary e => some e

end Moment

namespace Act

mutual

/-- The moments of an act, while `depth` calls are open around it. -/
def traceOf (depth : Nat) : Act → List Moment
  | write v => [.write v]
  | call loc f args inner ending =>
    .boundary (.enter f (depth + 1) args loc) ::
      (trace (depth + 1) inner ++ (exitEvent f (depth + 1) ending).map .boundary)

/-- The moments of acts, while `depth` calls are open around them. -/
def trace (depth : Nat) : List Act → List Moment
  | [] => []
  | a :: as => a.traceOf depth ++ trace depth as

end

@[simp] theorem trace_append (depth : Nat) (as bs : List Act) :
    trace depth (as ++ bs) = trace depth as ++ trace depth bs := by
  induction as with
  | nil => rfl
  | cons a as ih => simp [trace, ih]

/-- The trace of a call is that of its inside between its boundaries. -/
theorem trace_call (depth : Nat) (loc : Option Location) (f : String) (args : List Int)
    (inner : List Act) (ending : Ending) :
    trace depth [.call loc f args inner ending] = .boundary (.enter f (depth + 1) args loc) ::
      (trace (depth + 1) inner ++ (exitEvent f (depth + 1) ending).map .boundary) := by
  simp [trace, traceOf]

theorem filterMap_event_map (es : List Event) :
    (es.map Moment.boundary).filterMap Moment.event? = es := by
  rw [List.filterMap_map]
  exact List.filterMap_some

theorem filterMap_written_map (es : List Event) :
    (es.map Moment.boundary).filterMap Moment.written? = [] := by
  rw [List.filterMap_map, List.filterMap_eq_nil_iff]
  intro e _
  rfl

mutual

theorem filterMap_event_traceOf (depth : Nat) :
    ∀ a : Act, (a.traceOf depth).filterMap Moment.event? = a.eventsOf depth
  | .write v => rfl
  | .call loc f args inner ending => by
    have hinner := filterMap_event_trace (depth + 1) inner
    have hmap := filterMap_event_map (exitEvent f (depth + 1) ending)
    simp only [traceOf, eventsOf, List.filterMap_cons, Moment.event?, List.filterMap_append, hinner,
      hmap]

/-- **The events are those of the trace.** -/
theorem filterMap_event_trace (depth : Nat) :
    ∀ as : List Act, (trace depth as).filterMap Moment.event? = events depth as
  | [] => rfl
  | a :: as => by
    rw [trace, events, List.filterMap_append, filterMap_event_traceOf depth a,
      filterMap_event_trace depth as]

end

mutual

theorem filterMap_written_traceOf (depth : Nat) :
    ∀ a : Act, (a.traceOf depth).filterMap Moment.written? = a.writtenBy
  | .write v => rfl
  | .call loc f args inner ending => by
    have hinner := filterMap_written_trace (depth + 1) inner
    have hmap := filterMap_written_map (exitEvent f (depth + 1) ending)
    simp only [traceOf, writtenBy, List.filterMap_cons, Moment.written?, List.filterMap_append,
      hinner, hmap, List.append_nil]

/-- **The values written are those of the trace.** -/
theorem filterMap_written_trace (depth : Nat) :
    ∀ as : List Act, (trace depth as).filterMap Moment.written? = written as
  | [] => rfl
  | a :: as => by
    rw [trace, written, List.filterMap_append, filterMap_written_traceOf depth a,
      filterMap_written_trace depth as]

end

theorem mem_events_iff {depth : Nat} {as : List Act} {e : Event} :
    e ∈ events depth as ↔ .boundary e ∈ trace depth as := by
  rw [← filterMap_event_trace, List.mem_filterMap]
  constructor
  · rintro ⟨m, hm, he⟩
    cases m with
    | write v => cases he
    | boundary e' =>
      cases he
      exact hm
  · exact fun h => ⟨_, h, rfl⟩

end Act

/-- No call in the trace is nested deeper than `d`. -/
def Shallow (d : Nat) (trace : List Moment) : Prop :=
  ∀ f k args loc, .boundary (.enter f k args loc) ∈ trace → k ≤ d

theorem shallow_nil (d : Nat) : Shallow d [] := by
  intro f k args loc h
  cases h

theorem Shallow.append {d : Nat} {t t' : List Moment} (h : Shallow d t) (h' : Shallow d t') :
    Shallow d (t ++ t') := by
  intro f k args loc hm
  rcases List.mem_append.1 hm with hm | hm
  · exact h f k args loc hm
  · exact h' f k args loc hm

theorem shallow_exit (d : Nat) (f : String) (depth : Nat) (ending : Ending) :
    Shallow d ((Act.exitEvent f depth ending).map .boundary) := by
  intro g k args loc hm
  cases ending with
  | returned v => simp [Act.exitEvent] at hm
  | cutShort => simp [Act.exitEvent] at hm

theorem Shallow.call {d depth : Nat} (hle : depth + 1 ≤ d) {t : List Moment} (h : Shallow d t)
    (f : String) (args : List Int) (loc : Option Location) :
    Shallow d (.boundary (.enter f (depth + 1) args loc) :: t) := by
  intro g k as l hm
  rcases List.mem_cons.1 hm with heq | hm
  · cases heq
    exact hle
  · exact h g k as l hm

/-! ## Outcomes cut short -/

namespace Outcome

variable {α β : Type}

/-- The first outcome is cut from the second at the first call nested deeper than `d`: it ends with
a fault there, and its trace is the trace of the second one before the call. -/
def CutFrom (d depth : Nat) (o o' : Outcome α) : Prop :=
  Shallow d (Act.trace depth o.acts) ∧ ∃ f args loc after,
    Act.trace depth o'.acts =
      Act.trace depth o.acts ++ .boundary (.enter f (d + 1) args loc) :: after ∧
    o.result = .error ⟨.tooDeep, loc⟩

/-- The first outcome is the second, which makes no call nested deeper than `d`, or is cut from it
at the first of these. -/
def Truncated (d depth : Nat) (o o' : Outcome α) : Prop :=
  (o = o' ∧ Shallow d (Act.trace depth o.acts)) ∨ o.CutFrom d depth o'

theorem Truncated.of_nil {d depth : Nat} {o : Outcome α} (h : o.acts = []) :
    o.Truncated d depth o := by
  refine .inl ⟨rfl, ?_⟩
  rw [h]
  exact shallow_nil d

/-- What is cut from a part is cut from the whole, since nothing follows a fault. -/
theorem CutFrom.andThen {d depth : Nat} {o o' : Outcome α} (h : o.CutFrom d depth o')
    (f f' : α → Outcome β) : (o.andThen f).CutFrom d depth (o'.andThen f') := by
  obtain ⟨hs, g, args, loc, after, htrace, hresult⟩ := h
  rw [andThen_of_error hresult]
  refine ⟨hs, g, args, loc, ?_⟩
  cases hr : o'.result with
  | error e =>
    rw [andThen_of_error hr]
    exact ⟨after, htrace, rfl⟩
  | ok a =>
    rw [andThen_of_ok hr]
    refine ⟨after ++ Act.trace depth (f' a).acts, ?_, rfl⟩
    simp [htrace]

theorem Truncated.andThen {d depth : Nat} {o o' : Outcome α} {f f' : α → Outcome β}
    (ho : o.Truncated d depth o') (hf : ∀ a, (f a).Truncated d depth (f' a)) :
    (o.andThen f).Truncated d depth (o'.andThen f') := by
  rcases ho with ⟨rfl, hs⟩ | hcut
  · cases hr : o.result with
    | error e =>
      rw [andThen_of_error hr, andThen_of_error hr]
      exact .inl ⟨rfl, hs⟩
    | ok a =>
      rw [andThen_of_ok hr, andThen_of_ok hr]
      rcases hf a with ⟨heq, hs'⟩ | ⟨hs', g, args, loc, after, htrace, hresult⟩
      · rw [← heq]
        refine .inl ⟨rfl, ?_⟩
        rw [Act.trace_append]
        exact hs.append hs'
      · refine .inr ⟨?_, g, args, loc, after, ?_, hresult⟩
        · rw [Act.trace_append]
          exact hs.append hs'
        · simp [htrace]
  · exact .inr (hcut.andThen f f')

/-- What is cut inside a call leaves the call open. -/
theorem Truncated.ofCall {d depth : Nat} (hle : depth + 1 ≤ d) {o o' : Outcome (Option Int)}
    (h : o.Truncated d (depth + 1) o') (loc : Option Location) (f : String) (args : List Int) :
    (ofCall loc f args o).Truncated d depth (ofCall loc f args o') := by
  rcases h with ⟨rfl, hs⟩ | ⟨hs, g, as, l, after, htrace, hresult⟩
  · refine .inl ⟨rfl, ?_⟩
    unfold Outcome.ofCall
    rw [Act.trace_call]
    exact (hs.append (shallow_exit d _ _ _)).call hle f args loc
  · -- the error inside leaves the call without an end
    have hend : ending o.result = .cutShort := by rw [hresult]; rfl
    have hopen : Act.trace depth (Outcome.ofCall loc f args o).acts =
        .boundary (.enter f (depth + 1) args loc) :: Act.trace (depth + 1) o.acts := by
      unfold Outcome.ofCall
      rw [Act.trace_call, hend]
      simp [Act.exitEvent]
    refine .inr ⟨?_, g, as, l, after ++ (Act.exitEvent f (depth + 1) (ending o'.result)).map
      .boundary, ?_, hresult⟩
    · rw [hopen]
      exact hs.call hle f args loc
    · rw [hopen]
      unfold Outcome.ofCall
      rw [Act.trace_call, htrace]
      simp

/-- A forbidden call is cut from the call itself, which the other evaluation enters. -/
theorem cutFrom_ofCall (d : Nat) (loc : Option Location) (f : String) (args : List Int)
    (o : Outcome (Option Int)) :
    (fault loc .tooDeep : Outcome (Option Int)).CutFrom d d (ofCall loc f args o) := by
  refine ⟨shallow_nil d, f, args, loc, Act.trace (d + 1) o.acts ++
    (Act.exitEvent f (d + 1) (ending o.result)).map .boundary, ?_, rfl⟩
  exact Act.trace_call d loc f args o.acts (ending o.result)

theorem simulation_truncated (d depth : Nat) : Simulation (Truncated d depth) where
  value _ := .of_nil rfl
  fault _ _ := .of_nil rfl
  write v := by
    refine .inl ⟨rfl, ?_⟩
    intro f k args loc h
    simp [Act.trace, Act.traceOf] at h
  andThen := .andThen

end Outcome

/-! ## Evaluations under two limits -/

theorem Context.forbids_some {table : Table} {d k : Nat} :
    (⟨table, some (d : Int)⟩ : Context).forbids k = true ↔ d < k := by
  simp [Context.forbids]

theorem Context.forbids_of_le {table : Table} {maxDepth : Option Int} {d k : Nat}
    (hlt : ∀ limit, maxDepth = some limit → (d : Int) < limit) (hk : k ≤ d + 1) :
    (⟨table, maxDepth⟩ : Context).forbids k = false := by
  cases maxDepth with
  | none => rfl
  | some limit =>
    have hlimit := hlt limit rfl
    simp only [Context.forbids, decide_eq_false_iff_not]
    omega

namespace Expr

open Outcome

/-- A call under the smaller limit, if evaluations with less stack are cut from the others. -/
theorem invoke_truncated {table : Table} {d : Nat} {maxDepth : Option Int}
    (hlt : ∀ limit, maxDepth = some limit → (d : Int) < limit) {stack depth : Nat}
    (hdepth : depth ≤ d)
    (ih : ∀ stack' < stack, ∀ depth ≤ d, ∀ frame e,
      (eval ⟨table, some d⟩ stack' depth frame e).Truncated d depth
        (eval ⟨table, maxDepth⟩ stack' depth frame e))
    (loc : Option Location) (f : String) (args : List Int) :
    (invoke ⟨table, some d⟩ stack depth loc f args).Truncated d depth
      (invoke ⟨table, maxDepth⟩ stack depth loc f args) := by
  have hlong : (⟨table, maxDepth⟩ : Context).forbids (depth + 1) = false :=
    Context.forbids_of_le hlt (by omega)
  unfold invoke
  rw [if_neg (c := (⟨table, maxDepth⟩ : Context).forbids (depth + 1) = true) (by simp [hlong])]
  by_cases hd : d < depth + 1
  · -- the smaller limit forbids the call, and the other run enters it
    have hdeq : depth = d := by omega
    rw [if_pos (Context.forbids_some.2 hd), hdeq]
    exact .inr (cutFrom_ofCall d loc f args _)
  rw [if_neg (fun h => hd (Context.forbids_some.1 h))]
  refine Truncated.ofCall (by omega) ?_ loc f args
  have hsim := simulation_truncated d (depth + 1)
  unfold callee
  cases Native.find? f with
  | some n => exact hsim.native n loc args
  | none =>
    dsimp only
    cases table.find? f with
    | none => exact hsim.fault loc _
    | some g =>
      dsimp only
      split
      · exact hsim.fault loc _
      cases stack with
      | zero => exact hsim.fault none _
      | succ stack => exact ih stack (Nat.lt_succ_self _) (depth + 1) (by omega) _ _

/-- **An evaluation under a smaller limit is cut from the one under a larger limit**, if both have
the same stack. -/
theorem eval_truncated (table : Table) {d : Nat} {maxDepth : Option Int}
    (hlt : ∀ limit, maxDepth = some limit → (d : Int) < limit) (stack : Nat) {depth : Nat}
    (hdepth : depth ≤ d) (frame : Frame) (e : Expr) :
    (eval ⟨table, some d⟩ stack depth frame e).Truncated d depth
      (eval ⟨table, maxDepth⟩ stack depth frame e) := by
  induction stack using Nat.strongRecOn generalizing depth frame e with
  | ind stack ih =>
    by_cases hstack : stack < 2
    · rw [eval_exhausted hstack, eval_exhausted hstack]
      exact .of_nil rfl
    obtain ⟨stack, rfl⟩ : ∃ n, stack = n + 2 := ⟨stack - 2, by omega⟩
    refine (simulation_truncated d depth).eval_step (fun e => ih stack (by omega) hdepth frame e)
      ?_ e
    exact invoke_truncated hlt hdepth fun stack' hs depth hd => ih stack' (by omega) hd

end Expr

/-! ## Runs under two limits -/

/-- The stack stops the run: it is used up, or would have to be larger than a stack can be. -/
def Run.OutOfStack (r : Run) : Prop :=
  ∃ err, r.outcome.result = .error err ∧ (err.fault = .stackExhausted ∨ err.fault = .stackTooLarge)

theorem Run.eq_of_outcome {r r' : Run} (hbegun : r.begun = r'.begun)
    (houtcome : r.outcome = r'.outcome) : r = r' := by
  obtain ⟨b, o⟩ := r
  obtain ⟨b', o'⟩ := r'
  subst hbegun houtcome
  rfl

theorem Run.not_outOfStack_of_ok {r : Run} {v : Option Int} (h : r.outcome.result = .ok v) :
    ¬r.OutOfStack := by
  rintro ⟨err, herr, -⟩
  rw [h] at herr
  cases herr

namespace Program

/-- What a run comes to if the stack does not stop it: the outcome of the entry point's body, with
the stack that there is or any larger one. -/
theorem run_eq_eval {p : Program} {body : Expr} (hbody : p.entryBody = .ok body)
    {maxDepth : Option Int} (hstack : ¬(p.run maxDepth).OutOfStack) {stack : Nat}
    (hle : stackFor maxDepth ≤ stack) :
    p.run maxDepth =
      ⟨true, body.eval ⟨p.table, maxDepth⟩ stack 0 (.ofBindings entryPoint [])⟩ := by
  have hrun := run_of_entryBody_ok hbody maxDepth
  have hfits : ¬(largestStack < demandedStack maxDepth) := by
    intro hlarge
    rw [hrun, if_pos hlarge] at hstack
    exact hstack ⟨_, rfl, .inr rfl⟩
  rw [if_neg hfits] at hrun
  have hmore := Expr.eval_settles ⟨p.table, maxDepth⟩ hle 0 (.ofBindings entryPoint []) body
  rw [hmore, hrun]
  intro hex
  rw [hrun] at hstack
  exact hstack ⟨_, hex, .inl rfl⟩

theorem stackFor_mono {limit limit' : Int} (h : limit ≤ limit') :
    stackFor (some limit) ≤ stackFor (some limit') := by
  simp only [stackFor, demandedStack, framesPerCall, defaultStack]
  omega

/-- A run is cut from the run under a larger limit, if the stack stops neither. -/
theorem run_truncated_outcome {p : Program} {d : Nat} {maxDepth : Option Int}
    (hlt : ∀ limit, maxDepth = some limit → (d : Int) < limit)
    (hshort : ¬(p.run (some d)).OutOfStack) (hlong : ¬(p.run maxDepth).OutOfStack) :
    (p.run (some d)).begun = (p.run maxDepth).begun ∧
      (p.run (some d)).outcome.Truncated d 0 (p.run maxDepth).outcome := by
  cases hbody : p.entryBody with
  | error e =>
    rw [run_of_entryBody_error hbody, run_of_entryBody_error hbody]
    exact ⟨rfl, .of_nil rfl⟩
  | ok body =>
    -- both runs have the outcomes that they have with the larger of the two stacks
    obtain ⟨stack, hle, hle'⟩ : ∃ stack, stackFor (some d) ≤ stack ∧ stackFor maxDepth ≤ stack :=
      ⟨_, Nat.le_max_left _ _, Nat.le_max_right _ _⟩
    rw [run_eq_eval hbody hshort hle, run_eq_eval hbody hlong hle']
    exact ⟨rfl, Expr.eval_truncated p.table hlt stack (Nat.zero_le d) _ body⟩

/-- A run that ends with a value does the same under every larger limit that has a stack: no more
stack is needed than there is. -/
theorem run_eq_of_ok {p : Program} {d : Nat} {v : Option Int}
    (h : (p.run (some d)).outcome.result = .ok v) {limit : Int} (hlt : (d : Int) < limit)
    (hfits : demandedStack (some limit) ≤ largestStack) : p.run (some limit) = p.run (some d) := by
  have hstack := Run.not_outOfStack_of_ok h
  have hlt' : ∀ limit', some limit = some limit' → (d : Int) < limit' := by
    rintro _ ⟨⟩
    exact hlt
  cases hbody : p.entryBody with
  | error e =>
    rw [run_of_entryBody_error hbody] at h
    cases h
  | ok body =>
    have hlong := run_of_entryBody_ok hbody (some limit)
    rw [if_neg (Int.not_lt.2 hfits)] at hlong
    have hshort := run_eq_eval hbody hstack (stackFor_mono (Int.le_of_lt hlt))
    have htrunc := Expr.eval_truncated p.table hlt' (stackFor (some limit)) (Nat.zero_le d)
      (.ofBindings entryPoint []) body
    rw [hshort] at h ⊢
    rw [hlong]
    -- a run that was cut short would have ended in an error
    rcases htrunc with ⟨heq, -⟩ | ⟨-, f, args, loc, after, -, hresult⟩
    · rw [heq]
    · rw [hresult] at h
      cases h

/-- **A depth limit only cuts a run short.** Let `d` be a smaller limit than `maxDepth`, and let the
stack stop neither run. If the run under `maxDepth` makes no call nested deeper than `d`, then the
run under `d` is the same; the first call deeper than `d` would be at depth `d + 1`, which the
larger limit allows, so that it would be entered. Otherwise the run under `d` goes too deep at the
first call that the other run enters at depth `d + 1`, and its values written and its events are
those of the other run before it enters this call. In particular, a run that ends with a value is
the same under every larger limit; of a limit that is a number nothing need be known but that there
is a stack for it. -/
theorem run_truncated (p : Program) (d : Nat) (maxDepth : Option Int)
    (hlt : ∀ limit, maxDepth = some limit → (d : Int) < limit)
    (hshort : ¬(p.run (some d)).OutOfStack) (hlong : ¬(p.run maxDepth).OutOfStack) :
    ((∀ f k args loc, .enter f k args loc ∈ Act.events 0 (p.run maxDepth).outcome.acts → k ≤ d) →
      p.run (some d) = p.run maxDepth) ∧
    ((∃ f k args loc, .enter f k args loc ∈ Act.events 0 (p.run maxDepth).outcome.acts ∧ d < k) →
      ∃ before f args loc after,
        Act.trace 0 (p.run maxDepth).outcome.acts =
          before ++ .boundary (.enter f (d + 1) args loc) :: after ∧
        (∀ g k args loc, .boundary (.enter g k args loc) ∈ before → k ≤ d) ∧
        (p.run (some d)).outcome.result = .error ⟨.tooDeep, loc⟩ ∧
        Act.written (p.run (some d)).outcome.acts = before.filterMap Moment.written? ∧
        Act.events 0 (p.run (some d)).outcome.acts = before.filterMap Moment.event?) ∧
    (∀ v, (p.run (some d)).outcome.result = .ok v →
      p.run maxDepth = p.run (some d) ∧
        ∀ limit : Int, (d : Int) < limit → demandedStack (some limit) ≤ largestStack →
          p.run (some limit) = p.run (some d)) := by
  obtain ⟨hbegun, htrunc⟩ := run_truncated_outcome hlt hshort hlong
  refine ⟨?_, ?_, ?_⟩
  · intro hshallow
    rcases htrunc with ⟨heq, -⟩ | ⟨-, f, args, loc, after, htrace, -⟩
    · exact Run.eq_of_outcome hbegun heq
    · have hmem : .enter f (d + 1) args loc ∈ Act.events 0 (p.run maxDepth).outcome.acts := by
        rw [Act.mem_events_iff, htrace]
        simp
      have hle := hshallow f (d + 1) args loc hmem
      omega
  · rintro ⟨f, k, args, loc, hmem, hk⟩
    rcases htrunc with ⟨heq, hs⟩ | ⟨hs, g, args, loc, after, htrace, hresult⟩
    · rw [heq] at hs
      have hle := hs f k args loc (Act.mem_events_iff.1 hmem)
      omega
    · refine ⟨_, g, args, loc, after, htrace, hs, hresult, ?_, ?_⟩
      · rw [Act.filterMap_written_trace]
      · rw [Act.filterMap_event_trace]
  · intro v hv
    refine ⟨?_, fun limit hlimit hfits => run_eq_of_ok hv hlimit hfits⟩
    rcases htrunc with ⟨heq, -⟩ | ⟨-, f, args, loc, after, -, hresult⟩
    · exact (Run.eq_of_outcome hbegun heq).symm
    · rw [hresult] at hv
      cases hv

/-- A run that goes too deep at the second of two nested calls, where a run without a limit goes
on. -/
theorem run_truncated_nested :
    ∃ p : Program,
      (p.run (some 1)).outcome.result = .error ⟨.tooDeep, some ⟨"s", 2, 8⟩⟩ ∧
      (p.run none).outcome.result = .ok (some 2) ∧
      Act.events 0 (p.run none).outcome.acts =
        [.enter "f" 1 [2] none, .enter "g" 2 [2] (some ⟨"s", 2, 8⟩), .exit "g" 2 (some 2),
          .exit "f" 1 (some 2)] ∧
      ∃ before f args loc after,
        Act.trace 0 (p.run none).outcome.acts =
          before ++ .boundary (.enter f 2 args loc) :: after ∧
        Act.events 0 (p.run (some 1)).outcome.acts = before.filterMap Moment.event? := by
  have hcut : ∀ p : Program,
      (p.run (some 1)).outcome.result = .error ⟨.tooDeep, some ⟨"s", 2, 8⟩⟩ →
      (p.run none).outcome.result = .ok (some 2) →
      Act.events 0 (p.run none).outcome.acts =
        [.enter "f" 1 [2] none, .enter "g" 2 [2] (some ⟨"s", 2, 8⟩), .exit "g" 2 (some 2),
          .exit "f" 1 (some 2)] →
      ∃ before f args loc after,
        Act.trace 0 (p.run none).outcome.acts =
          before ++ .boundary (.enter f 2 args loc) :: after ∧
        Act.events 0 (p.run (some 1)).outcome.acts = before.filterMap Moment.event? := by
    intro p hshort hlong hevents
    have hstack : ¬(p.run (some 1)).OutOfStack := by
      rintro ⟨err, herr, hfault⟩
      rw [hshort] at herr
      cases herr
      simp at hfault
    obtain ⟨before, f, args, loc, after, htrace, -, -, -, hbefore⟩ :=
      (run_truncated p 1 none (by simp) hstack (Run.not_outOfStack_of_ok hlong)).2.1
        ⟨"g", 2, [2], some ⟨"s", 2, 8⟩, by rw [hevents]; decide, by decide⟩
    exact ⟨before, f, args, loc, after, htrace, hbefore⟩
  refine ⟨⟨none, [⟨none, "main", [], .call none "f" [.literal none 2]⟩,
    ⟨none, "f", [⟨none, "x"⟩], .call (some ⟨"s", 2, 8⟩) "g" [.var none "x"]⟩,
    ⟨none, "g", [⟨none, "y"⟩], .var none "y"⟩]⟩, ?_, ?_, ?_, hcut _ ?_ ?_ ?_⟩
  · decide +kernel
  · decide +kernel
  · decide +kernel
  · decide +kernel
  · decide +kernel
  · decide +kernel

end Program

end Wordlet
