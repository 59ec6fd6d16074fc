import Mathlib.Data.List.TakeWhile
import Wordlet.Eval.Observer
import Wordlet.Proofs.DepthLimit
import Wordlet.Proofs.Sessions
import Wordlet.Proofs.Values

/-!
# What observers make of a run

A run that is watched does what the run does alone, one moment after the other, and hands each
boundary of a call to the observer, provided that the observer leaves the arguments of calls as they
are. It ends before its time only if the observer fails, or if the stack does not suffice to tell it
of a boundary; and then the run alone, with as many frames of the stack less, would not come to its
end either. So what an observer keeps is a matter of the trace of the run, and two observers that do
not fail and take nothing of the stack leave the run alike.

* `Watched.Tracks.bind_ok`, `Watched.Tracks.bind_error`: parts of a run one after the other.
* `Watched.Follows.calling`: **a call follows its trace if what is inside does.**
* `Watched.eval_follows`: **an evaluation that is watched follows its trace**, by induction on the
  stack.
* `Program.watching_follows`, `Program.watch_cases`: the same of runs.
* `Watch.follow_of_notice`: what an observer keeps that does not fail.
* `Watch.follow_logging`: what an observer keeps that logs.
* `Program.watch_observers`: **the observers that there are take no part in a run, and the log is
  the trace**, up to where logging ends the run.
* `Program.log_eq_watch`: the log of a run, `Run.log`, is what the observer writes that logs.
-/

namespace Wordlet

variable {σ α β : Type}

/-! ## Following a trace -/

namespace Watch

/-- One more value is written. -/
def write (w : Watch σ) (v : Int) : Watch σ := { w with written := w.written.push v }

/-- What the moments of a trace leave, until the observer fails at one of them. -/
def follow (observer : Observer σ) (w : Watch σ) : List Moment → Except EvalError Unit × Watch σ
  | [] => (.ok (), w)
  | .write v :: ms => follow observer (w.write v) ms
  | .boundary e :: ms =>
    match observer.notice w.seen e with
    | .ok seen => follow observer { w with seen } ms
    | .error x => (.error ⟨x, none⟩, w)

/-- The end of a part of a run that has a trace and a result, if the stack suffices to tell of all
boundaries. -/
def finish (observer : Observer σ) (w : Watch σ) (ms : List Moment) (result : Except EvalError α) :
    Except EvalError α × Watch σ :=
  match w.follow observer ms with
  | (.ok (), w') => (result, w')
  | (.error e, w') => (.error e, w')

/-- The stack gives out where the observer is to be told of the boundary `e`: the moments before it
leave `w'`. -/
def GivesOut (observer : Observer σ) (w : Watch σ) (ms : List Moment) (e : Event)
    (w' : Watch σ) : Prop :=
  ∃ front rest, ms = front ++ .boundary e :: rest ∧ 0 < observer.frames e ∧
    w.follow observer front = (.ok (), w')

theorem follow_boundary (observer : Observer σ) (w : Watch σ) (e : Event) (ms : List Moment) :
    w.follow observer (.boundary e :: ms) = match observer.notice w.seen e with
      | .ok seen => follow observer { w with seen } ms
      | .error x => (.error ⟨x, none⟩, w) := rfl

theorem follow_append (observer : Observer σ) (w : Watch σ) (ms ms' : List Moment) :
    w.follow observer (ms ++ ms') = match w.follow observer ms with
      | (.ok (), w') => w'.follow observer ms'
      | (.error e, w') => (.error e, w') := by
  induction ms generalizing w with
  | nil => rfl
  | cons m ms ih =>
    cases m with
    | write v => exact ih (w.write v)
    | boundary e =>
      rw [List.cons_append, follow_boundary, follow_boundary]
      cases observer.notice w.seen e with
      | ok seen => exact ih { w with seen }
      | error x => rfl

theorem follow_append_of_ok {observer : Observer σ} {w w' : Watch σ} {ms : List Moment}
    (h : w.follow observer ms = (.ok (), w')) (ms' : List Moment) :
    w.follow observer (ms ++ ms') = w'.follow observer ms' := by
  rw [follow_append, h]

/-- Where no call begins or ends there is nothing to tell. -/
theorem follow_of_no_event (observer : Observer σ) (w : Watch σ) {ms : List Moment}
    (h : ms.filterMap Moment.event? = []) :
    w.follow observer ms =
      (.ok (), { w with written := w.written ++ (ms.filterMap Moment.written?).toArray }) := by
  induction ms generalizing w with
  | nil => simp [follow]
  | cons m ms ih =>
    cases m with
    | write v =>
      rw [follow, ih (w.write v) h]
      simp [write, Moment.written?]
    | boundary e => cases h

/-- A failure on the way is the observer's own. -/
theorem follow_error {observer : Observer σ} (w : Watch σ) {w' : Watch σ} {ms : List Moment}
    {err : EvalError} (h : w.follow observer ms = (.error err, w')) :
    ∃ seen e x, observer.notice seen e = .error x ∧ err = ⟨x, none⟩ := by
  induction ms generalizing w with
  | nil => cases h
  | cons m ms ih =>
    cases m with
    | write v => exact ih (w.write v) h
    | boundary e =>
      rw [follow_boundary] at h
      cases hnotice : observer.notice w.seen e with
      | ok seen =>
        rw [hnotice] at h
        exact ih { w with seen } h
      | error x =>
        rw [hnotice] at h
        cases h
        exact ⟨_, e, x, hnotice, rfl⟩

theorem GivesOut.append {observer : Observer σ} {w w' : Watch σ} {ms : List Moment} {e : Event}
    (h : w.GivesOut observer ms e w') (ms' : List Moment) :
    w.GivesOut observer (ms ++ ms') e w' := by
  obtain ⟨front, rest, rfl, hframes, hfollow⟩ := h
  exact ⟨front, rest ++ ms', by simp, hframes, hfollow⟩

theorem GivesOut.after {observer : Observer σ} {w w₁ w' : Watch σ} {ms ms' : List Moment}
    {e : Event} (hfirst : w.follow observer ms = (.ok (), w₁))
    (h : w₁.GivesOut observer ms' e w') : w.GivesOut observer (ms ++ ms') e w' := by
  obtain ⟨front, rest, rfl, hframes, hfollow⟩ := h
  refine ⟨ms ++ front, rest, by simp, hframes, ?_⟩
  rw [follow_append_of_ok hfirst, hfollow]

end Watch

namespace Watched

theorem run_bind (action : Watched σ α) (next : α → Watched σ β) (w : Watch σ) :
    (action >>= next).run.run w = match action.run.run w with
      | (.ok a, w') => (next a).run.run w'
      | (.error e, w') => (.error e, w') := by
  rw [ExceptT.run_bind, StateT.run_bind]
  rcases action.run.run w with ⟨_ | _, w'⟩ <;> rfl

/-- The part of a run follows the moments and ends with the result, if the observer does not fail.
Or else the stack gives out on the way, where it takes some frames to tell the observer and the
stack is `short` of these. -/
def Tracks (observer : Observer σ) (action : Watched σ α) (short : Nat → Prop) (ms : List Moment)
    (result : Except EvalError α) : Prop :=
  ∀ w : Watch σ, action.run.run w = w.finish observer ms result ∨
    ∃ e w', w.GivesOut observer ms e w' ∧ short (observer.frames e) ∧
      action.run.run w = (.error ⟨.stackExhausted, none⟩, w')

variable {observer : Observer σ} {short short' : Nat → Prop}

theorem Tracks.mono {action : Watched σ α} {ms : List Moment} {result : Except EvalError α}
    (h : Tracks observer action short ms result) (hshort : ∀ n, short n → short' n) :
    Tracks observer action short' ms result :=
  fun w => (h w).imp_right fun ⟨e, w', hout, hn, hcut⟩ => ⟨e, w', hout, hshort _ hn, hcut⟩

theorem Tracks.bind_error {action : Watched σ α} {ms : List Moment} {e : EvalError}
    (h : Tracks observer action short ms (.error e)) (next : α → Watched σ β) :
    Tracks observer (action >>= next) short ms (.error e) := by
  intro w
  rw [run_bind]
  rcases h w with hdone | ⟨e, w', hout, hn, hcut⟩
  · rw [hdone, Watch.finish, Watch.finish]
    rcases w.follow observer ms with ⟨_ | _, w'⟩ <;> exact .inl rfl
  · rw [hcut]
    exact .inr ⟨e, w', hout, hn, rfl⟩

theorem Tracks.bind_ok {action : Watched σ α} {ms ms' : List Moment} {a : α}
    {result : Except EvalError β} (h : Tracks observer action short ms (.ok a))
    {next : α → Watched σ β} (hnext : Tracks observer (next a) short ms' result) :
    Tracks observer (action >>= next) short (ms ++ ms') result := by
  intro w
  rw [run_bind]
  rcases h w with hdone | ⟨e, w', hout, hn, hcut⟩
  · rw [hdone, Watch.finish, Watch.finish, Watch.follow_append]
    rcases hfirst : w.follow observer ms with ⟨_ | _, w'⟩
    · exact .inl rfl
    · rcases hnext w' with hdone' | ⟨e, w'', hout, hn, hcut⟩
      · exact .inl hdone'
      · exact .inr ⟨e, w'', hout.after hfirst, hn, hcut⟩
  · -- what comes after does not begin
    rw [hcut]
    exact .inr ⟨e, w', hout.append ms', hn, rfl⟩

theorem Tracks.bind_get {next : Watch σ → Watched σ α} {ms : List Moment}
    {result : Except EvalError α} (h : ∀ w, Tracks observer (next w) short ms result) :
    Tracks observer (get >>= next) short ms result :=
  fun w => h w w

/-- The observer is told of a boundary, if the stack suffices for it. -/
theorem tracks_tell (observer : Observer σ) (stack : Nat) (e : Event) :
    Tracks observer (tell observer stack e) (stack < ·) [.boundary e] (.ok ()) := by
  intro w
  unfold tell
  split
  · next hstack =>
    exact .inr ⟨e, w, ⟨[], [], rfl, Nat.zero_lt_of_lt hstack, rfl⟩, hstack, rfl⟩
  · have hget : (notify observer e).run.run w = (match observer.notice w.seen e with
        | .ok seen => set { w with seen }
        | .error x => throw ⟨x, none⟩ : Watched σ Unit).run.run w := rfl
    rw [hget, Watch.finish, Watch.follow_boundary]
    cases observer.notice w.seen e <;> exact .inl rfl

/-! ## Parts of a run -/

/-- The part of a run does what the outcome says, at the depth. Here `less n` is the outcome with
`n` frames of the stack less: if it takes `n` frames to tell the observer and the stack gives out,
then it is short of these, or that outcome has used it up. -/
structure Follows (observer : Observer σ) (depth : Nat) (action : Watched σ α)
    (short : Nat → Prop) (o : Outcome α) (less : Nat → Outcome α) : Prop where
  tracks : Tracks observer action (fun n => short n ∨ (less n).Exhausted) (Act.trace depth o.acts)
    o.result
  settles : ∀ n, (less n).Settles o

variable {depth : Nat}

theorem Follows.mono {action : Watched σ α} {o : Outcome α} {less : Nat → Outcome α}
    (h : Follows observer depth action short o less) (hshort : ∀ n, short n → short' n) :
    Follows observer depth action short' o less :=
  ⟨h.tracks.mono fun n => .imp_left (hshort n), h.settles⟩

theorem follows_pure (a : α) :
    Follows observer depth (pure a) short (.value a) fun _ => .value a :=
  ⟨fun _ => .inl rfl, fun _ => .refl _⟩

theorem follows_throw (loc : Option Location) (x : Fault) :
    Follows observer depth (throw ⟨x, loc⟩ : Watched σ α) short (.fault loc x)
      fun _ => .fault loc x :=
  ⟨fun _ => .inl rfl, fun _ => .refl _⟩

theorem follows_ofOutcome {o : Outcome α} (h : Act.events depth o.acts = []) :
    Follows observer depth (ofOutcome o) short o fun _ => o := by
  refine ⟨fun w => ?_, fun _ => .refl _⟩
  have hwrite : (ofOutcome o).run.run w = (ofExcept o.result).run.run
      { w with written := w.written ++ (Act.written o.acts).toArray } := rfl
  rw [← Act.filterMap_event_trace] at h
  rw [hwrite, Watch.finish, Watch.follow_of_no_event observer w h, Act.filterMap_written_trace]
  cases o.result <;> exact .inl rfl

/-- **One part after another.** The stack is used up in both together if it is in the first, or in
the second where the first ends with a value. -/
theorem Follows.bind {action : Watched σ α} {o : Outcome α} {less : Nat → Outcome α}
    (h : Follows observer depth action short o less) {next : α → Watched σ β} {f : α → Outcome β}
    {less' : α → Nat → Outcome β}
    (hnext : ∀ a, Follows observer depth (next a) short (f a) (less' a)) :
    Follows observer depth (action >>= next) short (o.andThen f)
      fun n => (less n).andThen fun a => less' a n := by
  refine ⟨?_, fun n => (h.settles n).andThen fun a => (hnext a).settles n⟩
  have hfirst := h.tracks.mono fun n => Or.imp_right (·.andThen fun a => less' a n)
  cases hr : o.result with
  | error e =>
    rw [hr] at hfirst
    rw [Outcome.andThen_of_error hr]
    exact hfirst.bind_error next
  | ok a =>
    rw [hr] at hfirst
    rw [Outcome.andThen_of_ok hr, Act.trace_append]
    have hsecond := (hnext a).tracks.mono fun n =>
      Or.imp_right ((h.settles n).exhausted_andThen (f := fun a => less' a n) hr)
    exact hfirst.bind_ok hsecond

/-- **A call is told of when it begins, and when it ends with a value.** -/
theorem Follows.calling (hleave : ∀ seen args, observer.leave seen args = args) {cx : Context}
    {stack : Nat} (hstack : ∀ n, stack < n → short n) {loc : Option Location} {f : String}
    {args : List Int} {inside : List Int → Watched σ (Option Int)} {o : Outcome (Option Int)}
    {less : Nat → Outcome (Option Int)}
    (h : Follows observer (depth + 1) (inside args) short o less) :
    Follows observer depth (Watched.calling observer cx stack depth loc f args inside) short
      (if cx.forbids (depth + 1) then .fault loc .tooDeep else .ofCall loc f args o)
      fun n => if cx.forbids (depth + 1) then .fault loc .tooDeep
        else .ofCall loc f args (less n) := by
  unfold Watched.calling
  by_cases hdeep : cx.forbids (depth + 1) = true
  · simp only [if_pos hdeep]
    exact follows_throw loc .tooDeep
  simp only [if_neg hdeep]
  refine ⟨?_, fun n => (h.settles n).ofCall loc f args⟩
  have htrace : Act.trace depth (Outcome.ofCall loc f args o).acts =
      [.boundary (.enter f (depth + 1) args loc)] ++ (Act.trace (depth + 1) o.acts ++
        (Act.exitEvent f (depth + 1) (Outcome.ending o.result)).map .boundary) :=
    Act.trace_call depth loc f args o.acts _
  have hresult : (Outcome.ofCall loc f args o).result = o.result := rfl
  -- a call uses up the stack if what is inside does
  have hinside : Tracks observer (inside args)
      (fun n => short n ∨ (Outcome.ofCall loc f args (less n)).Exhausted)
      (Act.trace (depth + 1) o.acts) o.result := h.tracks
  have htell (e : Event) : Tracks observer (tell observer stack e)
      (fun n => short n ∨ (Outcome.ofCall loc f args (less n)).Exhausted) [.boundary e] (.ok ()) :=
    (tracks_tell observer stack e).mono fun n hn => .inl (hstack n hn)
  rw [htrace, hresult]
  refine (htell _).bind_ok (Tracks.bind_get fun w => ?_)
  rw [hleave]
  cases hr : o.result with
  | error e =>
    -- the observer is not told of the end of a call that fails
    rw [hr] at hinside
    rw [Outcome.ending, Act.exitEvent, List.map_nil, List.append_nil]
    exact hinside.bind_error _
  | ok v =>
    rw [hr] at hinside
    rw [Outcome.ending, Act.exitEvent, List.map_singleton]
    have hpure : Tracks observer (pure v)
        (fun n => short n ∨ (Outcome.ofCall loc f args (less n)).Exhausted) [] (.ok v) :=
      fun _ => .inl rfl
    exact hinside.bind_ok ((htell _).bind_ok hpure)

theorem follows_arguments {watch : Expr → Watched σ (Option Int)}
    {eval : Expr → Outcome (Option Int)} {less : Nat → Expr → Outcome (Option Int)} {f : String}
    {es : List Expr}
    (h : ∀ e ∈ es, Follows observer depth (watch e) short (eval e) fun n => less n e)
    (index : Nat) :
    Follows observer depth (arguments watch f index es) short (Expr.evalArguments eval f index es)
      fun n => Expr.evalArguments (less n) f index es := by
  induction es generalizing index with
  | nil => exact follows_pure []
  | cons e es ih =>
    obtain ⟨he, hes⟩ := List.forall_mem_cons.1 h
    rw [arguments]
    simp only [Expr.evalArguments]
    refine he.bind fun v => ?_
    cases v with
    | none => exact follows_throw _ _
    | some v => exact (ih hes (index + 1)).bind fun vs => follows_pure _

theorem follows_callee {cx : Context} {stack : Nat} {loc : Option Location} {f : String}
    {args : List Int} {body : Definition → Watched σ (Option Int)}
    (hbody : ∀ d, Follows observer (depth + 1) (body d) short
      (match stack with
        | 0 => .fault none .stackExhausted
        | stack + 1 => Expr.eval cx stack (depth + 1) (d.frame args) d.body)
      fun n => match stack - n with
        | 0 => .fault none .stackExhausted
        | stack + 1 => Expr.eval cx stack (depth + 1) (d.frame args) d.body) :
    Follows observer (depth + 1) (callee cx loc f args body) short
      (Expr.callee cx stack depth loc f args)
      fun n => Expr.callee cx (stack - n) depth loc f args := by
  unfold callee Expr.callee
  cases Native.find? f with
  | some n => exact follows_ofOutcome (n.events_outcome loc args _)
  | none =>
    cases cx.table.find? f with
    | none => exact follows_throw _ _
    | some d =>
      by_cases harity : d.arity ≠ args.length
      · simp only [if_pos harity]
        exact follows_throw _ _
      · simp only [if_neg harity]
        exact hbody d

/-- The body of a function with some frames of the stack less. -/
theorem body_less (cx : Context) (stack n depth : Nat) (frame : Frame) (e : Expr) :
    (match stack + 1 - n with
      | 0 => .fault none .stackExhausted
      | stack + 1 => e.eval cx stack depth frame) = e.eval cx (stack - n) depth frame := by
  rcases Nat.lt_or_ge stack n with hshort | hle
  · rw [Nat.sub_eq_zero_of_le (by omega : stack + 1 ≤ n),
      Nat.sub_eq_zero_of_le (Nat.le_of_lt hshort)]
    rfl
  · rw [Nat.sub_add_comm hle]

/-- What is known of the parts of an expression is known of the expression: with frames of the stack
less it has none for its parts, or as many less for them. -/
theorem Follows.of_parts {cx : Context} {stack : Nat} {frame : Frame} {e : Expr}
    {action : Watched σ (Option Int)}
    (h : Follows observer depth action (stack < ·) (e.eval cx (stack + 2) depth frame)
      fun n => e.eval cx (stack - n + 2) depth frame) :
    Follows observer depth action (fun _ => False) (e.eval cx (stack + 2) depth frame)
      fun n => e.eval cx (stack + 2 - n) depth frame := by
  refine ⟨h.tracks.mono fun n hn => .inr ?_, fun n => Expr.eval_settles cx (by omega) _ _ _⟩
  rcases Nat.lt_or_ge stack n with hshort | hle
  · rw [Expr.eval_exhausted (by omega)]
    rfl
  · rw [Nat.sub_add_comm hle]
    exact hn.resolve_left (Nat.not_lt.2 hle)

/-- **An evaluation that is watched follows its trace.** The induction is on the stack; the body of
a function is evaluated one call deeper. -/
theorem eval_follows (hleave : ∀ seen args, observer.leave seen args = args) (cx : Context)
    (stack depth : Nat) (frame : Frame) (e : Expr) :
    Follows observer depth (eval observer cx stack depth frame e) (fun _ => False)
      (e.eval cx stack depth frame) fun n => e.eval cx (stack - n) depth frame := by
  induction stack using Nat.strongRecOn generalizing depth frame e with
  | ind stack ih =>
    match stack with
    | 0 =>
      have hless (n : Nat) := Expr.eval_exhausted (by omega : 0 - n < 2) cx depth frame e
      simp only [hless]
      exact follows_throw none .stackExhausted
    | 1 =>
      have hless (n : Nat) := Expr.eval_exhausted (by omega : 1 - n < 2) cx depth frame e
      simp only [hless]
      exact follows_throw none .stackExhausted
    | stack + 2 =>
      have hpart (depth : Nat) (frame : Frame) (e : Expr) :
          Follows observer depth (eval observer cx stack depth frame e) (stack < ·)
            (e.eval cx stack depth frame) fun n => e.eval cx (stack - n) depth frame :=
        (ih stack (by omega) depth frame e).mono fun _ => False.elim
      refine Follows.of_parts ?_
      cases e with
      | empty loc => exact follows_pure none
      | literal loc v => exact follows_pure (some v)
      | var loc x =>
        have hless : (fun n => (Expr.var loc x).eval cx (stack - n + 2) depth frame) =
            fun _ => (Expr.var loc x).eval cx (stack + 2) depth frame := rfl
        rw [hless, eval, Expr.eval]
        cases frame.lookup loc x with
        | ok v => exact follows_pure (some v)
        | error e => exact follows_throw e.loc e.fault
      | branch loc c t e =>
        simp only [eval, Expr.eval_branch]
        refine (hpart depth frame c).bind fun v => ?_
        cases v with
        | none => exact follows_throw _ _
        | some v =>
          dsimp only [Expr.choose]
          by_cases hone : v = 1
          · simp only [if_pos hone]
            exact hpart depth frame t
          · simp only [if_neg hone]
            exact hpart depth frame e
      | call loc f es =>
        simp only [eval, Expr.eval_call]
        refine (follows_arguments (fun e _ => hpart depth frame e) 1).bind fun args => ?_
        refine Follows.calling hleave (fun _ => id) (follows_callee fun d => ?_)
        cases stack with
        | zero =>
          simp only [Nat.zero_sub]
          exact follows_throw _ _
        | succ stack =>
          simp only [body_less]
          exact (ih stack (by omega) (depth + 1) (d.frame args) d.body).mono fun _ => False.elim
      | stray loc node es => exact follows_ofOutcome (node.events_outcome loc depth)

end Watched

/-! ## Runs -/

namespace Program

/-- The moments of a run. -/
def trace (p : Program) (maxDepth : Option Int) : List Moment :=
  Act.trace 0 (p.run maxDepth).outcome.acts

/-- The outcome of a run with `n` frames of the stack less. -/
def outcomeLess (p : Program) (maxDepth : Option Int) (n : Nat) : Outcome (Option Int) :=
  (p.enter fun body =>
    if largestStack < demandedStack maxDepth then .fault none .stackTooLarge
    else
      body.eval ⟨p.table, maxDepth⟩ (stackFor maxDepth - n) 0 (.ofBindings entryPoint [])).outcome

theorem outcomeLess_zero (p : Program) (maxDepth : Option Int) :
    p.outcomeLess maxDepth 0 = (p.run maxDepth).outcome := rfl

/-- **A run that is watched follows the trace of the run.** -/
theorem watching_follows (p : Program) {observer : Observer σ}
    (hleave : ∀ seen args, observer.leave seen args = args) (maxDepth : Option Int) :
    Watched.Follows observer 0 (p.watching observer maxDepth) (fun _ => False)
      (p.run maxDepth).outcome (p.outcomeLess maxDepth) := by
  unfold watching run outcomeLess enter
  cases hbody : p.entryBody with
  | error e => exact ⟨fun _ => .inl rfl, fun _ => .refl _⟩
  | ok body =>
    rw [Watched.ofExcept, pure_bind]
    dsimp only
    split
    · exact Watched.follows_throw _ _
    · exact Watched.eval_follows hleave _ _ 0 _ body

/-- **A run that is watched** follows its trace to the end, unless the observer fails. Or else the
stack gives out where it takes some frames to tell the observer, and with these less the run uses up
its stack. -/
theorem watch_cases (p : Program) {observer : Observer σ}
    (hleave : ∀ seen args, observer.leave seen args = args) (maxDepth : Option Int) :
    p.watch observer maxDepth = Watch.finish observer ⟨observer.start, #[]⟩ (p.trace maxDepth)
        (p.run maxDepth).outcome.result ∨
      ∃ e w', Watch.GivesOut observer ⟨observer.start, #[]⟩ (p.trace maxDepth) e w' ∧
        (p.outcomeLess maxDepth (observer.frames e)).Exhausted ∧
        p.watch observer maxDepth = (.error ⟨.stackExhausted, none⟩, w') := by
  have htracks := (p.watching_follows hleave maxDepth).tracks.mono fun n hn => hn.resolve_left id
  exact htracks _

/-- Where it takes nothing of the stack to tell the observer, the run follows its trace to the
end. -/
theorem watch_eq_finish (p : Program) {observer : Observer σ}
    (hleave : ∀ seen args, observer.leave seen args = args) (hframes : ∀ e, observer.frames e = 0)
    (maxDepth : Option Int) :
    p.watch observer maxDepth = Watch.finish observer ⟨observer.start, #[]⟩ (p.trace maxDepth)
      (p.run maxDepth).outcome.result := by
  rcases p.watch_cases hleave maxDepth with hdone | ⟨e, _, ⟨_, _, _, hpos, _⟩, _⟩
  · exact hdone
  · exact absurd (hframes e) (Nat.ne_of_gt hpos)

/-- **How a run with a bystander ends.** It ends as the run does alone, or with an error of the
observer's own, or because the stack does not suffice to tell of a boundary. -/
theorem watch_of_bystander (p : Program) {observer : Observer σ} (h : observer.Bystander)
    (maxDepth : Option Int) :
    (p.watch observer maxDepth).1 = (p.run maxDepth).outcome.result ∨
      (∃ x, (p.watch observer maxDepth).1 = .error ⟨x, none⟩ ∧ x.isForeign = true) ∨
      (p.watch observer maxDepth).1 = .error ⟨.stackExhausted, none⟩ := by
  rcases p.watch_cases h.leave_eq maxDepth with hdone | ⟨_, w, -, -, hcut⟩
  · rw [hdone, Watch.finish]
    rcases hfollow : Watch.follow observer ⟨observer.start, #[]⟩ (p.trace maxDepth) with
      ⟨err | _, w⟩
    · -- what ends it before its time is a notice of the observer
      obtain ⟨seen, e, x, hnotice, rfl⟩ := Watch.follow_error _ hfollow
      exact .inr (.inl ⟨x, rfl, h.isForeign seen e x hnotice⟩)
    · exact .inl rfl
  · rw [hcut]
    exact .inr (.inr rfl)

end Program

/-! ## Observers that do not fail -/

namespace Watch

/-- **What an observer keeps that does not fail**: it is told of all events, and all values are
written. -/
theorem follow_of_notice {observer : Observer σ} {next : σ → Event → σ} {ms : List Moment}
    (h : ∀ e ∈ ms.filterMap Moment.event?, ∀ seen, observer.notice seen e = .ok (next seen e))
    (w : Watch σ) :
    w.follow observer ms = (.ok (), ⟨(ms.filterMap Moment.event?).foldl next w.seen,
      w.written ++ (ms.filterMap Moment.written?).toArray⟩) := by
  induction ms generalizing w with
  | nil => simp [follow]
  | cons m ms ih =>
    cases m with
    | write v =>
      have hevents : (Moment.write v :: ms).filterMap Moment.event? = ms.filterMap Moment.event? :=
        rfl
      have hwritten : (Moment.write v :: ms).filterMap Moment.written? =
          v :: ms.filterMap Moment.written? := rfl
      rw [follow, ih h, hevents, hwritten]
      simp [write]
    | boundary e =>
      obtain ⟨he, hms⟩ := List.forall_mem_cons.1 h
      rw [follow_boundary, he]
      exact ih hms { w with seen := next w.seen e }

/-- An observer that fails is told of the events before, and the values before are written. -/
theorem follow_of_fails {observer : Observer σ} {next : σ → Event → σ} {ms : List Moment}
    {before after : List Event} {e : Event} {x : Fault}
    (hms : ms.filterMap Moment.event? = before ++ e :: after)
    (hbefore : ∀ b ∈ before, ∀ seen, observer.notice seen b = .ok (next seen b))
    (he : ∀ seen, observer.notice seen e = .error x) (w : Watch σ) :
    ∃ written later, ms.filterMap Moment.written? = written ++ later ∧
      w.follow observer ms =
        (.error ⟨x, none⟩, ⟨before.foldl next w.seen, w.written ++ written.toArray⟩) := by
  -- the moments are cut before those that lead to `e`, and these before `e` itself
  obtain ⟨ms₁, ms₂, rfl, h₁, h₂⟩ := List.filterMap_eq_append_iff.1 hms
  obtain ⟨ms₃, m, ms₄, rfl, h₃, hm, -⟩ := List.filterMap_eq_cons_iff.1 h₂
  obtain rfl : m = .boundary e := by
    cases m with
    | write v => cases hm
    | boundary e' =>
      cases hm
      rfl
  have h₄ : ms₃.filterMap Moment.event? = [] := List.filterMap_eq_nil_iff.2 h₃
  refine ⟨ms₁.filterMap Moment.written? ++ ms₃.filterMap Moment.written?,
    ms₄.filterMap Moment.written?, ?_, ?_⟩
  · have hwritten : (Moment.boundary e :: ms₄).filterMap Moment.written? =
        ms₄.filterMap Moment.written? := rfl
    rw [List.filterMap_append, List.filterMap_append, hwritten, List.append_assoc]
  · rw [← h₁] at hbefore
    rw [follow_append, follow_of_notice hbefore, h₁]
    dsimp only
    rw [follow_append, follow_of_no_event _ _ h₄]
    dsimp only
    rw [follow_boundary, he]
    simp only [Array.append_assoc, List.append_toArray]

end Watch

/-! ## Observers that log -/

namespace Sink

/-- The records that the sink holds of events are their lines, if they can be written. -/
theorem filterMap_record? (sink : Sink) (level : Level) (es : List Event) :
    es.filterMap (sink.record? level) = if sink.keeps level then
      (es.filter Event.hasDecimal).map fun e => ⟨.calls, level, e.line⟩ else [] := by
  induction es with
  | nil => split <;> rfl
  | cons e es ih =>
    rw [List.filterMap_cons, List.filter_cons, ih]
    unfold record?
    cases sink.keeps level <;> cases e.hasDecimal <;> rfl

end Sink

namespace Observer

variable {level : Level} {sink : Sink} {frames : Event → Nat} {e : Event}

/-- What a log holds after one more event. -/
def extend (level : Level) (sink : Sink) (log : Array LogRecord) (e : Event) : Array LogRecord :=
  log ++ (sink.record? level e).toArray

theorem notice_logging (h : e.stops (sink.refuses level) = false) (log : Array LogRecord) :
    (logging level sink frames).notice log e = .ok (extend level sink log e) := by
  unfold logging
  dsimp only
  rw [h]
  rfl

theorem notice_logging_error (h : e.stops (sink.refuses level) = true) (log : Array LogRecord) :
    (logging level sink frames).notice log e = .error .numberTooLong :=
  if_pos h

theorem foldl_extend (level : Level) (sink : Sink) (log : Array LogRecord) (es : List Event) :
    es.foldl (extend level sink) log = log ++ (es.filterMap (sink.record? level)).toArray := by
  induction es generalizing log with
  | nil => simp
  | cons e es ih =>
    rw [List.foldl_cons, ih, extend, List.filterMap_cons]
    cases sink.record? level e <;> simp

end Observer

namespace Watch

/-- **What an observer keeps that logs.** Its log holds the records of the events before the first
that stops it, and of all events if there is none. -/
theorem follow_logging (level : Level) (sink : Sink) (frames : Event → Nat) (ms : List Moment) :
    ∃ before after, ms.filterMap Moment.event? = before ++ after ∧
      (∀ b ∈ before, b.stops (sink.refuses level) = false) ∧
      let log := (before.filterMap (sink.record? level)).toArray
      let result := (⟨#[], #[]⟩ : Watch _).follow (.logging level sink frames) ms
      match after with
      | [] => result = (.ok (), ⟨log, (ms.filterMap Moment.written?).toArray⟩)
      | e :: _ => e.stops (sink.refuses level) = true ∧
          ∃ written later, ms.filterMap Moment.written? = written ++ later ∧
            result = (.error ⟨.numberTooLong, none⟩, ⟨log, written.toArray⟩) := by
  -- the events are cut at the first that stops the observer
  let goesOn (e : Event) : Bool := !e.stops (sink.refuses level)
  have hsplit : ms.filterMap Moment.event? =
      (ms.filterMap Moment.event?).takeWhile goesOn ++
        (ms.filterMap Moment.event?).dropWhile goesOn :=
    List.takeWhile_append_dropWhile.symm
  have hbefore : ∀ b ∈ (ms.filterMap Moment.event?).takeWhile goesOn,
      b.stops (sink.refuses level) = false := by
    intro b hb
    have hgoes : goesOn b = true := List.mem_takeWhile_imp hb
    simpa [goesOn] using hgoes
  refine ⟨_, _, hsplit, hbefore, ?_⟩
  dsimp only
  generalize (ms.filterMap Moment.event?).takeWhile goesOn = before at hsplit hbefore ⊢
  have hfold := Observer.foldl_extend level sink #[] before
  rw [Array.empty_append] at hfold
  rw [← hfold]
  split
  · rename_i hnil
    rw [hnil, List.append_nil] at hsplit
    rw [← hsplit] at hbefore ⊢
    rw [follow_of_notice fun e he => Observer.notice_logging (hbefore e he), Array.empty_append]
  · rename_i e after hcons
    have hstops : e.stops (sink.refuses level) = true := by
      have hhead := List.head?_dropWhile_not goesOn (ms.filterMap Moment.event?)
      rw [hcons] at hhead
      simpa [goesOn] using hhead
    rw [hcons] at hsplit
    obtain ⟨written, later, hwritten, hfollow⟩ := follow_of_fails hsplit
      (fun b hb => Observer.notice_logging (hbefore b hb)) (Observer.notice_logging_error hstops)
      ⟨#[], #[]⟩
    rw [Array.empty_append] at hfollow
    exact ⟨hstops, written, later, hwritten, hfollow⟩

end Watch

/-! ## The observers that there are -/

namespace Observer

theorem bystander_idle : idle.Bystander where
  leave_eq _ _ := rfl
  isForeign _ _ _ h := by cases h

theorem bystander_recording : recording.Bystander where
  leave_eq _ _ := rfl
  isForeign _ _ _ h := by cases h

/-- An observer that logs fails, if at all, at an integer that is too long. -/
theorem bystander_logging (level : Level) (sink : Sink) (frames : Event → Nat) :
    (logging level sink frames).Bystander where
  leave_eq _ _ := rfl
  isForeign log e x h := by
    cases hstops : e.stops (sink.refuses level) with
    | false => cases (notice_logging hstops log).symm.trans h
    | true =>
      cases (notice_logging_error hstops log).symm.trans h
      rfl

end Observer

namespace Program

variable (p : Program) (maxDepth : Option Int)

theorem filterMap_event_trace :
    (p.trace maxDepth).filterMap Moment.event? = (p.run maxDepth).events :=
  Act.filterMap_event_trace 0 _

theorem filterMap_written_trace :
    (p.trace maxDepth).filterMap Moment.written? = Act.written (p.run maxDepth).outcome.acts :=
  Act.filterMap_written_trace 0 _

/-- A run with an observer that does not fail, that leaves arguments as they are and that takes
nothing of the stack. -/
theorem watch_of_notice {observer : Observer σ} (next : σ → Event → σ)
    (hleave : ∀ seen args, observer.leave seen args = args) (hframes : ∀ e, observer.frames e = 0)
    (h : ∀ seen e, observer.notice seen e = .ok (next seen e)) :
    p.watch observer maxDepth = ((p.run maxDepth).outcome.result,
      ⟨(p.run maxDepth).events.foldl next observer.start,
        (Act.written (p.run maxDepth).outcome.acts).toArray⟩) := by
  rw [p.watch_eq_finish hleave hframes, Watch.finish,
    Watch.follow_of_notice fun e _ seen => h seen e, filterMap_event_trace, filterMap_written_trace,
    Array.empty_append]

theorem watch_idle : p.watch .idle maxDepth = ((p.run maxDepth).outcome.result,
    ⟨(), (Act.written (p.run maxDepth).outcome.acts).toArray⟩) :=
  p.watch_of_notice maxDepth (fun _ _ => ()) (fun _ _ => rfl) (fun _ => rfl) fun _ _ => rfl

theorem watch_recording : p.watch .recording maxDepth = ((p.run maxDepth).outcome.result,
    ⟨(p.run maxDepth).events.toArray, (Act.written (p.run maxDepth).outcome.acts).toArray⟩) := by
  have hfold : (p.run maxDepth).events.foldl Array.push #[] = (p.run maxDepth).events.toArray := by
    rw [List.foldl_push_eq_append, Array.empty_append, List.map_id']
  rw [← hfold]
  exact p.watch_of_notice maxDepth Array.push (fun _ _ => rfl) (fun _ => rfl) fun _ _ => rfl

/-- A run with an observer that logs: its log holds the records of the events before the one that
ends the run, and of all events if none does. -/
theorem watch_logging (level : Level) (sink : Sink) (frames : Event → Nat) :
    ∃ before after, (p.run maxDepth).events = before ++ after ∧
      (∀ b ∈ before, b.stops (sink.refuses level) = false) ∧
      let log := (before.filterMap (sink.record? level)).toArray
      let watched := p.watch (.logging level sink frames) maxDepth
      match after with
      | [] => watched = ((p.run maxDepth).outcome.result,
          ⟨log, (Act.written (p.run maxDepth).outcome.acts).toArray⟩)
      | e :: _ => ∃ written later fault,
          Act.written (p.run maxDepth).outcome.acts = written ++ later ∧
          watched = (.error ⟨fault, none⟩, ⟨log, written.toArray⟩) ∧
          (e.stops (sink.refuses level) = true ∧ fault = .numberTooLong ∨
            0 < frames e ∧ (p.outcomeLess maxDepth (frames e)).Exhausted ∧
              fault = .stackExhausted) := by
  have hstart : (Observer.logging level sink frames).start = #[] := rfl
  have hleave : ∀ seen args, (Observer.logging level sink frames).leave seen args = args :=
    fun _ _ => rfl
  rw [← filterMap_event_trace, ← filterMap_written_trace]
  rcases p.watch_cases hleave maxDepth with
    hwatch | ⟨e, w, ⟨front, rest, htrace, hframes, hfront⟩, hless, hcut⟩
  · obtain ⟨before, after, hevents, hbefore, hfollow⟩ :=
      Watch.follow_logging level sink frames (p.trace maxDepth)
    refine ⟨before, after, hevents, hbefore, ?_⟩
    rw [Watch.finish, hstart] at hwatch
    cases after with
    | nil =>
      dsimp only at hfollow ⊢
      rw [hwatch, hfollow]
    | cons e after =>
      obtain ⟨hstops, written, later, hwritten, hfollow⟩ := hfollow
      refine ⟨written, later, .numberTooLong, hwritten, ?_, .inl ⟨hstops, rfl⟩⟩
      rw [hwatch, hfollow]
  · -- no event before the one that the stack does not suffice for ends the run
    rw [hstart] at hfront
    obtain ⟨before, after, hevents, hbefore, hfollow⟩ :=
      Watch.follow_logging level sink frames front
    cases after with
    | cons e after =>
      obtain ⟨-, written, later, -, hfollow⟩ := hfollow
      cases hfront.symm.trans hfollow
    | nil =>
      rw [List.append_nil] at hevents
      refine ⟨before, e :: rest.filterMap Moment.event?, ?_, hbefore,
        front.filterMap Moment.written?, rest.filterMap Moment.written?, .stackExhausted, ?_, ?_,
        .inr ⟨hframes, hless, rfl⟩⟩
      · rw [htrace, List.filterMap_append, hevents]
        rfl
      · rw [htrace, List.filterMap_append]
        rfl
      · obtain rfl : w = _ := congrArg Prod.snd (hfront.symm.trans hfollow)
        exact hcut

/-- Where all literals are in range, every event can be logged. -/
theorem hasDecimal_of_literals (h : ∀ d ∈ p.definitions, d.body.LiteralsInRange) :
    ∀ e ∈ (p.run maxDepth).events, e.hasDecimal = true := by
  intro e he
  have hrange := Act.InRangeAll.event
    (Act.inRangeAll_iff.2 (run_inRange_of_literals h maxDepth).acts) 0 e he
  cases e with
  | enter f depth args loc =>
    exact List.all_eq_true.2 fun v hv => (hrange v hv).hasDecimal
  | exit f depth v =>
    cases v with
    | none => rfl
    | some x =>
      have hx : InRange x := hrange x (Option.mem_some_self x)
      rw [Event.hasDecimal, Option.all_some, hx.hasDecimal]

end Program

/-- An event that can be written does not end a run. -/
theorem Event.not_stops_of_hasDecimal {e : Event} (h : e.hasDecimal = true) (refused : Bool) :
    e.stops refused = false := by
  cases e with
  | enter f depth args loc =>
    have hargs : args.all Text.hasDecimal = true := h
    rw [stops, hargs, Bool.not_true]
  | exit f depth v =>
    have hv : v.all Text.hasDecimal = true := h
    rw [stops, hv, Bool.not_true, Bool.and_false]

namespace Program

variable (p : Program) (maxDepth : Option Int)

/-- **The observers that there are take no part in a run, and the log is the trace, up to where
logging ends the run.** A run ends in the same way and writes the same, with a value or with an
error, whether it has no observer, or one that does nothing, or one that records.

An observer that logs holds the lines of a front part of the events that are recorded, one for each
that can be written and in their order, if its level is kept, and nothing otherwise. Either this is
all of them, and the run ends as it does alone and writes the same. Or the event that comes next
ends the run: because it cannot be written, and has long arguments or a long value that the sink
refuses; or because it takes some frames to tell of it, for which the stack does not suffice. The
latter only happens where the run alone, with these frames less, uses up its stack. In a program
whose literals are in range every event can be written, and none ends the run for the first
reason. -/
theorem watch_observers (level : Level) (sink : Sink) (frames : Event → Nat) :
    let alone := p.watch .idle maxDepth
    let recorded := p.watch .recording maxDepth
    let logged := p.watch (.logging level sink frames) maxDepth
    let events := recorded.2.seen.toList
    let stops (e : Event) : Prop := e.stops (sink.refuses level) = true
    let lines (es : List Event) : List LogRecord :=
      if sink.keeps level then (es.filter Event.hasDecimal).map fun e => ⟨.calls, level, e.line⟩
      else []
    (alone.1 = (p.run maxDepth).outcome.result ∧ alone.2.output = (p.run maxDepth).output) ∧
    (recorded.1 = alone.1 ∧ recorded.2.output = alone.2.output) ∧
    (∃ before after, events = before ++ after ∧ logged.2.seen.toList = lines before ∧
      (∀ e ∈ before, ¬stops e) ∧
      match after with
      | [] => logged.1 = alone.1 ∧ logged.2.output = alone.2.output
      | e :: _ => (∃ later, alone.2.output = logged.2.output ++ later) ∧
          (stops e ∧ logged.1 = .error ⟨.numberTooLong, none⟩ ∨
            0 < frames e ∧ (p.outcomeLess maxDepth (frames e)).Exhausted ∧
              logged.1 = .error ⟨.stackExhausted, none⟩)) ∧
    ((∀ d ∈ p.definitions, d.body.LiteralsInRange) →
      ∀ e ∈ events, e.hasDecimal = true ∧ ¬stops e) := by
  intro alone recorded logged events stops lines
  have halone : alone = _ := p.watch_idle maxDepth
  have hrecorded : recorded = _ := p.watch_recording maxDepth
  have hevents : events = (p.run maxDepth).events := by
    unfold events
    rw [hrecorded]
  rw [halone, hrecorded, hevents]
  refine ⟨⟨rfl, rfl⟩, ⟨rfl, rfl⟩, ?_, ?_⟩
  · obtain ⟨before, after, hsplit, hbefore, hlogged⟩ := p.watch_logging maxDepth level sink frames
    have hlines : before.filterMap (sink.record? level) = lines before :=
      sink.filterMap_record? level before
    rw [hlines] at hlogged
    have hnone : ∀ e ∈ before, ¬stops e := fun e he => Bool.not_eq_true _ ▸ hbefore e he
    cases after with
    | nil =>
      have hlogged : logged = _ := hlogged
      rw [hlogged]
      exact ⟨before, [], hsplit, rfl, hnone, rfl, rfl⟩
    | cons e after =>
      obtain ⟨written, later, fault, hwritten, hlogged, hwhy⟩ := hlogged
      have hlogged : logged = _ := hlogged
      rw [hlogged]
      refine ⟨before, e :: after, hsplit, rfl, hnone, ⟨later.map Text.decimal, ?_⟩, ?_⟩
      · unfold Watch.output
        rw [hwritten, List.map_append]
      · rcases hwhy with ⟨hstops, rfl⟩ | ⟨hframes, hless, rfl⟩
        · exact .inl ⟨hstops, rfl⟩
        · exact .inr ⟨hframes, hless, rfl⟩
  · intro hliterals e he
    have hdecimal := p.hasDecimal_of_literals maxDepth hliterals e he
    exact ⟨hdecimal, Bool.not_eq_true _ ▸ Event.not_stops_of_hasDecimal hdecimal _⟩

/-- A run that fails while a call is open: all observers see the call begin, and none sees it
end. -/
theorem watch_observers_cut_short :
    ∃ p : Program,
      Program.parse (Token.scan "main()\x7bf(7)\x7d f(a)\x7bg(print(a))\x7d" "s") = .ok p ∧
      (∀ d ∈ p.definitions, d.body.LiteralsInRange) ∧
      (p.watch (.logging .info (.standard .info) fun _ => 0) (some 5)).1 =
        .error ⟨.argumentWithoutValue 1 "g", some ⟨"s", 1, 21⟩⟩ ∧
      (p.watch (.logging .info (.standard .info) fun _ => 0) (some 5)).2.output = ["7"] ∧
      (p.watch .recording (some 5)).2.seen.toList =
        [.enter "f" 1 [7] (some ⟨"s", 1, 8⟩), .enter "print" 2 [7] (some ⟨"s", 1, 21⟩),
          .exit "print" 2 none] ∧
      (p.watch (.logging .info (.standard .info) fun _ => 0) (some 5)).2.seen.toList =
        [⟨.calls, .info, "  → f(7) at s:1:8"⟩, ⟨.calls, .info, "    → print(7) at s:1:21"⟩,
          ⟨.calls, .info, "    ← print = ∅"⟩] := by
  have hp : Program.parse (Token.scan "main()\x7bf(7)\x7d f(a)\x7bg(print(a))\x7d" "s") = .ok
      ⟨some ⟨"s", 1, 1⟩,
        [⟨some ⟨"s", 1, 1⟩, "main", [],
            .call (some ⟨"s", 1, 8⟩) "f" [.literal (some ⟨"s", 1, 10⟩) 7]⟩,
          ⟨some ⟨"s", 1, 14⟩, "f", [⟨some ⟨"s", 1, 16⟩, "a"⟩],
            .call (some ⟨"s", 1, 19⟩) "g"
              [.call (some ⟨"s", 1, 21⟩) "print" [.var (some ⟨"s", 1, 27⟩) "a"]]⟩]⟩ := by cbv
  have hliterals := fun d hd => (spellable_of_parse hp d hd).2.2.literalsInRange
  refine ⟨_, hp, ?_⟩
  generalize hdef : (⟨some ⟨"s", 1, 1⟩, _⟩ : Program) = p at hliterals ⊢
  have hevents : (p.watch .recording (some 5)).2.seen.toList =
      [.enter "f" 1 [7] (some ⟨"s", 1, 8⟩), .enter "print" 2 [7] (some ⟨"s", 1, 21⟩),
        .exit "print" 2 none] := by
    subst hdef
    decide +kernel
  have halone : (p.watch .idle (some 5)).1 =
        .error ⟨.argumentWithoutValue 1 "g", some ⟨"s", 1, 21⟩⟩ ∧
      (p.watch .idle (some 5)).2.output = ["7"] := by
    subst hdef
    decide +kernel
  obtain ⟨-, -, ⟨before, after, hsplit, hlines, -, hlogged⟩, hwritable⟩ :=
    watch_observers p (some 5) .info (.standard .info) fun _ => 0
  have hall := hwritable hliterals
  cases after with
  | cons e after =>
    -- no event ends the run, and none takes anything of the stack
    obtain ⟨-, ⟨hstops, -⟩ | ⟨hframes, -⟩⟩ := hlogged
    · exact absurd hstops (hall e (by rw [hsplit]; simp)).2
    · exact absurd hframes (by decide)
  | nil =>
    rw [List.append_nil, hevents] at hsplit
    rw [← hsplit] at hlines
    obtain ⟨hresult, houtput⟩ := hlogged
    refine ⟨hliterals, hresult.trans halone.1, houtput.trans halone.2, hevents, hlines.trans ?_⟩
    decide +kernel

/-- A program that calls `equal` with an integer of 4301 digits. -/
def longArgument : Program :=
  ⟨none, [⟨none, "main", [], .call none "equal" [.call none "xor"
    [.literal none (-1), .literal none (Int.ofNat (Nat.pow 10 4300 - 1))], .literal none 0]⟩]⟩

/-- **An observer that logs can end a run**, whatever its sink does with records that cannot be
written: the arguments of a call are written when the call begins, also where the record is then
dropped. -/
theorem watch_logging_longArgument :
    ¬∀ (p : Program) (maxDepth : Option Int) (level threshold : Level),
      (p.watch (.logging level (.standard threshold) fun _ => 0) maxDepth).1 =
        (p.watch .idle maxDepth).1 := by
  intro h
  have halone : (longArgument.watch .idle none).1 = .ok (some 0) := by decide +kernel
  have hlogged : (longArgument.watch (.logging .debug (.standard .warning) fun _ => 0) none).1 =
      .error ⟨.numberTooLong, none⟩ := by decide +kernel
  have heq := h longArgument none .debug .warning
  rw [halone, hlogged] at heq
  cases heq

end Program

/-! ## The log of a run -/

namespace Act

variable (level : Level) (sink : Sink)

theorem events_call (depth : Nat) (loc : Option Location) (f : String) (args : List Int)
    (inner : List Act) (ending : Ending) :
    events depth [.call loc f args inner ending] = [.enter f (depth + 1) args loc] ++
      (events (depth + 1) inner ++ exitEvent f (depth + 1) ending) := by
  simp [events, eventsOf]

theorem written_call (loc : Option Location) (f : String) (args : List Int) (inner : List Act)
    (ending : Ending) : written [.call loc f args inner ending] = written inner := by
  simp [written, writtenBy]

/-- The observer that logs and takes nothing of the stack, in front of some moments. -/
theorem follow_logging_boundary (w : Watch (Array LogRecord)) (e : Event) (ms : List Moment) :
    w.follow (.logging level sink fun _ => 0) (.boundary e :: ms) =
      if e.stops (sink.refuses level) then (.error ⟨.numberTooLong, none⟩, w)
      else Watch.follow (.logging level sink fun _ => 0)
        { w with seen := w.seen ++ (sink.record? level e).toArray } ms := by
  rw [Watch.follow_boundary]
  cases hstops : e.stops (sink.refuses level) with
  | true =>
    rw [Observer.notice_logging_error hstops]
    rfl
  | false =>
    rw [Observer.notice_logging hstops]
    rfl

/-- The end of a call is logged, or the sink refuses its value. -/
theorem follow_exitEvent (w : Watch (Array LogRecord)) (f : String) (depth : Nat)
    (ending : Ending) :
    w.follow (.logging level sink fun _ => 0) ((exitEvent f depth ending).map .boundary) =
      if sink.refuses level && !ending.hasDecimal then (.error ⟨.numberTooLong, none⟩, w)
      else
        (.ok (), { w with seen := w.seen ++
          ((exitEvent f depth ending).filterMap (sink.record? level)).toArray }) := by
  cases ending with
  | cutShort => simp [exitEvent, Ending.hasDecimal, Watch.follow]
  | returned v =>
    rw [exitEvent, List.map_singleton, follow_logging_boundary]
    have hstops : (Event.exit f depth v).stops (sink.refuses level) =
        (sink.refuses level && !(Ending.returned v).hasDecimal) := rfl
    rw [hstops, List.filterMap_cons, List.filterMap_nil]
    cases sink.record? level (.exit f depth v) <;> rfl

mutual

/-- **What a logging observer leaves of an act is the act as it is logged.** -/
theorem follow_traceOf (w : Watch (Array LogRecord)) (depth : Nat) :
    ∀ a : Act, w.follow (.logging level sink fun _ => 0) (a.traceOf depth) =
      ((a.logged (sink.refuses level)).result,
        ⟨w.seen ++ ((events depth (a.logged (sink.refuses level)).acts).filterMap
            (sink.record? level)).toArray,
          w.written ++ (written (a.logged (sink.refuses level)).acts).toArray⟩)
  | .write v => by
    simp [logged, traceOf, Watch.follow, Watch.write, written, writtenBy, events, eventsOf]
  | .call loc f args inner ending => by
    have hinner := fun w => follow_trace w (depth + 1) inner
    have hstops : (Event.enter f (depth + 1) args loc).stops (sink.refuses level) =
        !args.all Text.hasDecimal := rfl
    have hrecord : ∀ es : List Event,
        ((Event.enter f (depth + 1) args loc :: es).filterMap (sink.record? level)).toArray =
          (sink.record? level (.enter f (depth + 1) args loc)).toArray ++
            (es.filterMap (sink.record? level)).toArray := by
      intro es
      rw [List.filterMap_cons]
      cases sink.record? level (.enter f (depth + 1) args loc) <;> simp
    rw [traceOf, follow_logging_boundary, hstops, logged]
    cases args.all Text.hasDecimal with
    | false => simp [Outcome.fault, events, written]
    | true =>
      rw [Bool.not_true, if_neg Bool.false_ne_true, if_pos rfl, Watch.follow_append, hinner]
      rcases loggedAll (sink.refuses level) inner with ⟨acts, e | u⟩
      · dsimp only
        rw [events_call, written_call, exitEvent, List.singleton_append, hrecord]
        simp
      · dsimp only
        rw [follow_exitEvent]
        split
        · rw [events_call, written_call, exitEvent, List.singleton_append, hrecord]
          simp
        · rw [events_call, written_call, List.singleton_append, hrecord]
          simp

theorem follow_trace (w : Watch (Array LogRecord)) (depth : Nat) :
    ∀ as : List Act, w.follow (.logging level sink fun _ => 0) (trace depth as) =
      ((loggedAll (sink.refuses level) as).result,
        ⟨w.seen ++ ((events depth (loggedAll (sink.refuses level) as).acts).filterMap
            (sink.record? level)).toArray,
          w.written ++ (written (loggedAll (sink.refuses level) as).acts).toArray⟩)
  | [] => by
    simp [loggedAll, Outcome.value, trace, events, written, Watch.follow]
  | a :: as => by
    have ha := follow_traceOf w depth a
    have has := fun w => follow_trace w depth as
    rw [trace, Watch.follow_append, ha, loggedAll]
    cases hresult : (a.logged (sink.refuses level)).result with
    | error e => rw [Outcome.andThen_of_error hresult]
    | ok u =>
      rw [Outcome.andThen_of_ok hresult]
      dsimp only
      rw [has, events_append, written_append, List.filterMap_append]
      simp only [Array.append_assoc, List.append_toArray]

end

end Act

namespace Run

/-- Logging adds no acts. -/
theorem acts_logged (r : Run) (level : Level) (sink : Sink) :
    (r.logged (some level) sink).outcome.acts =
      (Act.loggedAll (sink.refuses level) r.outcome.acts).acts := by
  unfold logged
  dsimp only
  rcases Act.loggedAll (sink.refuses level) r.outcome.acts with ⟨acts, e | u⟩
  · rfl
  · rcases r.outcome.result with e | v
    · exact List.append_nil acts
    · have hclose : ((if sink.refuses .debug && !v.all Text.hasDecimal then
          .fault none .numberTooLong else .value v : Outcome (Option Int))).acts = [] := by
        split <;> rfl
      simp only [Outcome.andThen, hclose, List.append_nil]

/-- The records of a run on its calls. -/
theorem filter_log (r : Run) (h : r.begun = false → r.outcome.acts = []) (functions : Nat)
    (level : Level) (sink : Sink) :
    ((r.log functions (some level) sink).filter fun record => record.channel = .calls) =
      r.events.filterMap (sink.record? level) := by
  have hnote : ∀ text, (sink.note text).filter (fun record => record.channel = .calls) = [] := by
    intro text
    unfold Sink.note
    split <;> rfl
  have hclosing : (r.closing sink).filter (fun record => record.channel = .calls) = [] := by
    unfold closing
    split
    · split
      · exact hnote _
      · rfl
    · rfl
  have hlines : ∀ record ∈ r.events.filterMap (sink.record? level), record.channel = .calls := by
    intro record hrecord
    rw [sink.filterMap_record?] at hrecord
    split at hrecord
    · obtain ⟨e, -, rfl⟩ := List.mem_map.1 hrecord
      rfl
    · cases hrecord
  unfold log
  cases hbegun : r.begun with
  | false =>
    have hevents : r.events = [] := by
      unfold events
      rw [h hbegun]
      rfl
    rw [hevents]
    rfl
  | true =>
    rw [if_pos rfl, List.filter_append, List.filter_append, hnote, hclosing, List.nil_append,
      List.append_nil]
    exact List.filter_eq_self.2 fun record hrecord => decide_eq_true (hlines record hrecord)

end Run

/-- **The log of a run is what a logging observer writes.** Where a run is logged with its calls,
its log holds what the observer has written, between the lines on the run as a whole; it writes the
same, and it fails where the watched run fails. -/
theorem Program.log_eq_watch (p : Program) (maxDepth : Option Int) (level : Level) (sink : Sink)
    (functions : Nat) :
    let r := (p.run maxDepth).logged (some level) sink
    let watched := p.watch (.logging level sink fun _ => 0) maxDepth
    ((r.log functions (some level) sink).filter fun record => record.channel = .calls) =
        watched.2.seen.toList ∧
      r.output = watched.2.output ∧ ∀ e, watched.1 = .error e → r.outcome.result = .error e := by
  intro r watched
  have hacts : r.outcome.acts = _ := (p.run maxDepth).acts_logged level sink
  have hbegun : r.begun = false → r.outcome.acts = [] := by
    intro hnot
    have hrun : (p.run maxDepth).begun = false := hnot
    rw [hacts]
    cases hbody : p.entryBody with
    | error e => rw [Program.run_of_entryBody_error hbody]; rfl
    | ok body =>
      rw [Program.run_of_entryBody_ok hbody] at hrun
      cases hrun
  have hstart : (⟨(Observer.logging level sink fun _ => 0).start, #[]⟩ :
      Watch (Array LogRecord)) = ⟨#[], #[]⟩ := rfl
  have hleave : ∀ seen args, (Observer.logging level sink fun _ => 0).leave seen args = args :=
    fun _ _ => rfl
  have hwatch : watched = _ := p.watch_eq_finish hleave (fun _ => rfl) maxDepth
  rw [Watch.finish, hstart, Program.trace, Act.follow_trace, Array.empty_append,
    Array.empty_append] at hwatch
  have hlog := r.filter_log hbegun functions level sink
  rw [hlog]
  unfold Run.output Outcome.output Run.events
  rw [hacts, hwatch]
  have houtcome : r.outcome = (Act.loggedAll (sink.refuses level)
      (p.run maxDepth).outcome.acts).andThen fun _ =>
        (⟨[], (p.run maxDepth).outcome.result⟩ : Outcome (Option Int)).andThen _ := rfl
  cases hresult : (Act.loggedAll (sink.refuses level) (p.run maxDepth).outcome.acts).result with
  | error e =>
    refine ⟨rfl, rfl, fun e' he => ?_⟩
    rw [houtcome, Outcome.andThen_of_error hresult]
    exact he
  | ok u =>
    refine ⟨rfl, rfl, fun e' he => ?_⟩
    have hrun : (p.run maxDepth).outcome.result = .error e' := he
    rw [houtcome, Outcome.andThen_of_ok hresult, hrun]
    rfl

end Wordlet
