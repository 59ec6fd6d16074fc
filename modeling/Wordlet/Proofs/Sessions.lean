import Mathlib.Data.List.Basic
import Mathlib.Data.List.Induction
import Wordlet.Eval.Log
import Wordlet.Eval.Machine
import Wordlet.Proofs.Reachability

/-!
# Sessions have no history

A machine has state that could pass from one step of a session to the next: its counter of open
calls, which every call raises, and its stack, which every run enlarges. Errors arise inside any
number of calls. Still, whatever the steps of a session were and however they ended, only the
functions of the last program and the limit are left of them.

* `Machine.Action.Does`: the machine does what an outcome says, records it, and is left as it was
  otherwise. There is a rule for each way in which actions are put together.
* `Machine.does_exec`: **the machine evaluates as `Expr.eval` says**, and its counter is back where
  it was, also after an error.
* `Machine.run_run`: the same of runs, and of the stack.
* `Machine.answer_ok`: a machine that is idle before a step is idle after it, and answers as the
  session does that it carries on.
* `Machine.answer_without_history`: what is left after any steps, and how the next one is answered.
-/

namespace Wordlet

/-! ## Tables by name -/

/-- Without repetitions, the elements of a list stand in the order of their first occurrences. -/
theorem pairwise_eraseDups {α : Type} [BEq α] [LawfulBEq α] (l : List α) :
    l.eraseDups.Pairwise fun a b => l.idxOf a < l.idxOf b := by
  induction l using List.reverseRecOn with
  | nil => exact .nil
  | append_singleton l x ih =>
    have hidx : ∀ a ∈ l.eraseDups, (l ++ [x]).idxOf a = l.idxOf a := fun a ha =>
      List.idxOf_append_of_mem (List.mem_eraseDups.1 ha)
    have hold : l.eraseDups.Pairwise fun a b => (l ++ [x]).idxOf a < (l ++ [x]).idxOf b := by
      refine List.Pairwise.imp_of_mem ?_ ih
      intro a b ha hb hlt
      rw [hidx a ha, hidx b hb]
      exact hlt
    rw [List.eraseDups_append]
    by_cases hx : x ∈ l
    · have hnone : [x].removeAll l = [] := by simp [List.removeAll, hx]
      rw [hnone, List.eraseDups_nil, List.append_nil]
      exact hold
    · have hone : [x].removeAll l = [x] := by simp [List.removeAll, hx]
      rw [hone, List.eraseDups_cons]
      refine List.pairwise_append.2 ⟨hold, List.pairwise_singleton _ _, ?_⟩
      intro a ha b hb
      obtain rfl := List.mem_singleton.1 hb
      have hlt : l.idxOf a < l.length := List.idxOf_lt_length_of_mem (List.mem_eraseDups.1 ha)
      rw [hidx a ha, List.idxOf_append_of_notMem hx]
      omega

/-- The table leads from each name to its last definition in the list, and lists the names in the
order of their first definitions. -/
structure Table.Lists (t : Table) (definitions : List Definition) : Prop where
  last : ∀ f, t.find? f = (definitions.filter (·.name == f)).getLast?
  mem_names : ∀ f, f ∈ t.names ↔ ∃ d ∈ definitions, d.name = f
  ordered : t.names.Pairwise fun f g =>
    (definitions.map (·.name)).idxOf f < (definitions.map (·.name)).idxOf g

theorem Program.lists_table (p : Program) : p.table.Lists p.definitions := by
  have hnames : p.table.names = (p.definitions.map (·.name)).eraseDups := by
    unfold Table.names Program.table
    rw [List.reverse_reverse]
  refine ⟨p.find?_table_eq_getLast?, ?_, ?_⟩
  · intro f
    rw [hnames, List.mem_eraseDups, List.mem_map]
  · rw [hnames]
    exact pairwise_eraseDups _

theorem Table.lists_empty : Table.empty.Lists [] :=
  Program.lists_table ⟨none, []⟩

/-! ## Natives and stray nodes call nothing -/

theorem Native.events_outcome (n : Native) (loc : Option Location) (args : List Int) (depth : Nat) :
    Act.events depth (n.outcome loc args).acts = [] := by
  unfold Native.outcome
  split
  · rfl
  · split
    · rfl
    · split <;> rfl

theorem Stray.events_outcome (node : Stray) (loc : Option Location) (depth : Nat) :
    Act.events depth (node.outcome loc).acts = [] := by
  unfold Stray.outcome
  split
  · split
    · rfl
    · split <;> rfl
  · rfl

namespace Machine

variable {α β : Type}

/-! ## What a machine records -/

/-- The machine after an outcome: what happened is recorded, and nothing else has changed. -/
def perform (m : Machine) (o : Outcome α) : Machine :=
  { m with
    events := m.events ++ (Act.events m.depth o.acts).toArray
    written := m.written ++ (Act.written o.acts).toArray }

theorem perform_of_nil (m : Machine) {o : Outcome α} (h : o.acts = []) : m.perform o = m := by
  simp [perform, h, Act.events, Act.written]

theorem perform_andThen_ok (m : Machine) {o : Outcome α} {a : α} (h : o.result = .ok a)
    (f : α → Outcome β) : m.perform (o.andThen f) = (m.perform o).perform (f a) := by
  simp [perform, Outcome.andThen_of_ok h, Array.append_assoc]

theorem perform_andThen_error (m : Machine) {o : Outcome α} {e : EvalError}
    (h : o.result = .error e) (f : α → Outcome β) : m.perform (o.andThen f) = m.perform o := by
  simp [perform, Outcome.andThen_of_error h]

/-- The end of a call is recorded at the depth of its beginning. -/
theorem perform_ofCall_ok (m : Machine) (loc : Option Location) (f : String) (args : List Int)
    {o : Outcome (Option Int)} {v : Option Int} (h : o.result = .ok v) :
    (((m.raise.enter loc f args).perform o).exit f v).lower =
      m.perform (.ofCall loc f args o) := by
  simp [perform, raise, enter, exit, lower, Outcome.ofCall, Outcome.ending, h, Act.events,
    Act.eventsOf, Act.exitEvent, Act.written, Act.writtenBy]

/-- A call that is cut short has no end on record, and the counter is lowered all the same. -/
theorem perform_ofCall_error (m : Machine) (loc : Option Location) (f : String) (args : List Int)
    {o : Outcome (Option Int)} {e : EvalError} (h : o.result = .error e) :
    ((m.raise.enter loc f args).perform o).lower = m.perform (.ofCall loc f args o) := by
  simp [perform, raise, enter, lower, Outcome.ofCall, Outcome.ending, h, Act.events,
    Act.eventsOf, Act.exitEvent, Act.written, Act.writtenBy]

/-! ## Actions in turn -/

theorem run_get_bind (next : Machine → Action β) (m : Machine) :
    (get >>= next).run.run m = (next m).run.run m := rfl

theorem run_modify_bind (change : Machine → Machine) (next : Unit → Action β) (m : Machine) :
    (modify change >>= next).run.run m = (next ()).run.run (change m) := rfl

theorem run_bind (action : Action α) (next : α → Action β) (m : Machine) :
    (action >>= next).run.run m = match action.run.run m with
      | (.ok a, m') => (next a).run.run m'
      | (.error e, m') => (.error e, m') := by
  rw [ExceptT.run_bind, StateT.run_bind]
  rcases action.run.run m with ⟨_ | _, m'⟩ <;> rfl

/-- What is to be done in the end is done after an error too. -/
theorem run_finally (action : Action α) (last : Machine → Machine) (m : Machine) :
    (tryFinally action (modify last)).run.run m =
      ((action.run.run m).1, last (action.run.run m).2) := by
  have hcases : (tryFinally action (modify last)).run.run m = match action.run.run m with
      | (.ok a, m') => (.ok a, last m')
      | (.error e, m') => (.error e, last m') := by
    simp only [tryFinally, MonadFinally.tryFinally', ExceptT.run, StateT.run, Functor.map,
      ExceptT.map, ExceptT.mk, bind, StateT.bind, pure]
    rcases action m with ⟨_ | _, m'⟩ <;> rfl
  rw [hcases]
  rcases action.run.run m with ⟨_ | _, m'⟩ <;> rfl

theorem run_calling (m : Machine) (loc : Option Location) (f : String) (args : List Int)
    (inside : Action (Option Int)) :
    (calling loc f args inside).run.run m =
      if m.context.forbids (m.depth + 1) then (.error ⟨.tooDeep, loc⟩, m)
      else
        match inside.run.run (m.raise.enter loc f args) with
        | (.ok v, m') => (.ok v, (m'.exit f v).lower)
        | (.error e, m') => (.error e, m'.lower) := by
  have hraise : m.raise.context.forbids m.raise.depth = m.context.forbids (m.depth + 1) := rfl
  unfold calling
  rw [run_modify_bind, run_finally, run_get_bind, hraise]
  split
  · rfl
  · rw [run_modify_bind, run_bind]
    rcases inside.run.run (m.raise.enter loc f args) with ⟨_ | _, m'⟩ <;> rfl

/-! ## Actions that do what an outcome says -/

/-- Started in `m`, the action ends as the outcome does, records what happened, and changes nothing
else. -/
def Action.Does (action : Action α) (m : Machine) (o : Outcome α) : Prop :=
  action.run.run m = (o.result, m.perform o)

theorem does_ofExcept (m : Machine) (r : Except EvalError α) :
    (Action.ofExcept r).Does m ⟨[], r⟩ := by
  have hnil : m.perform (⟨[], r⟩ : Outcome α) = m := perform_of_nil m rfl
  rw [Action.Does, hnil]
  cases r <;> rfl

theorem does_pure (m : Machine) (a : α) : (pure a : Action α).Does m (.value a) :=
  does_ofExcept m (.ok a)

theorem does_throw (m : Machine) (loc : Option Location) (x : Fault) :
    (throw ⟨x, loc⟩ : Action α).Does m (.fault loc x) :=
  does_ofExcept m (.error ⟨x, loc⟩)

theorem does_ofOutcome (m : Machine) {o : Outcome α} (h : Act.events m.depth o.acts = []) :
    (Action.ofOutcome o).Does m o := by
  have hwrite : m.write (Act.written o.acts) = m.perform o := by simp [write, perform, h]
  have hrest : (Action.ofExcept o.result).run.run (m.perform o) = (o.result, m.perform o) := by
    cases o.result <;> rfl
  rw [Action.Does, Action.ofOutcome, run_modify_bind, hwrite, hrest]

theorem Action.Does.bind {action : Action α} {m : Machine} {o : Outcome α} (h : action.Does m o)
    {next : α → Action β} {f : α → Outcome β}
    (hnext : ∀ a, (next a).Does (m.perform o) (f a)) : (action >>= next).Does m (o.andThen f) := by
  rw [Action.Does] at h ⊢
  rw [run_bind, h]
  cases hr : o.result with
  | error e => rw [perform_andThen_error m hr, Outcome.andThen_of_error hr]
  | ok a =>
    rw [perform_andThen_ok m hr, Outcome.andThen_of_ok hr]
    exact hnext a

/-- **A call is closed however its inside ends.** -/
theorem Action.Does.calling {m : Machine} {loc : Option Location} {f : String} {args : List Int}
    {inside : Action (Option Int)} {o : Outcome (Option Int)}
    (h : inside.Does (m.raise.enter loc f args) o) :
    (Machine.calling loc f args inside).Does m
      (if m.context.forbids (m.depth + 1) then .fault loc .tooDeep else .ofCall loc f args o) := by
  rw [Action.Does] at h ⊢
  rw [run_calling, h]
  split
  · rw [perform_of_nil m rfl]
    rfl
  · have hresult : (Outcome.ofCall loc f args o).result = o.result := rfl
    rw [hresult]
    cases hr : o.result with
    | ok v => rw [← perform_ofCall_ok m loc f args hr]
    | error e => rw [← perform_ofCall_error m loc f args hr]

/-- An action outside of a run ends as the outcome does there. -/
theorem Action.Does.unguarded {action : Action α} {m : Machine} {o : Outcome α}
    (h : action.Does m o) :
    Action.Does (ExceptT.adapt EvalError.unguarded action) m o.unguarded := by
  unfold Action.Does at h ⊢
  have hadapt : StateT.run (ExceptT.run (ExceptT.adapt EvalError.unguarded action)) m =
      ((action.run.run m).1.mapError .unguarded, (action.run.run m).2) := rfl
  rw [hadapt, h]
  rfl

theorem does_arguments {exec : Expr → Action (Option Int)} {eval : Expr → Outcome (Option Int)}
    {cx : Context} {depth : Nat} {f : String} {es : List Expr}
    (h : ∀ e ∈ es, ∀ m : Machine, m.context = cx → m.depth = depth → (exec e).Does m (eval e))
    (index : Nat) (m : Machine) (hcx : m.context = cx) (hdepth : m.depth = depth) :
    (arguments exec f index es).Does m (Expr.evalArguments eval f index es) := by
  induction es generalizing index m with
  | nil => exact does_pure m []
  | cons e es ih =>
    obtain ⟨he, hes⟩ := List.forall_mem_cons.1 h
    rw [arguments, Expr.evalArguments]
    refine (he m hcx hdepth).bind fun v => ?_
    cases v with
    | none => exact does_throw _ _ _
    | some v =>
      have hrest := ih hes (index + 1) (m.perform (eval e)) hcx hdepth
      exact hrest.bind fun vs => does_pure _ _

theorem does_callee {m : Machine} {loc : Option Location} {f : String} {args : List Int}
    {body : Definition → Action (Option Int)} {stack depth : Nat} {cx : Context}
    (hcx : m.context = cx)
    (hbody : ∀ d, (body d).Does m (match stack with
      | 0 => .fault none .stackExhausted
      | stack + 1 => Expr.eval cx stack (depth + 1) (d.frame args) d.body)) :
    (callee loc f args body).Does m (Expr.callee cx stack depth loc f args) := by
  subst hcx
  unfold callee Expr.callee
  cases Native.find? f with
  | some n => exact does_ofOutcome m (n.events_outcome loc args m.depth)
  | none =>
    have htable : m.context.table = m.table := rfl
    rw [Action.Does, run_get_bind]
    simp only [htable]
    cases m.table.find? f with
    | none => exact does_throw m _ _
    | some d =>
      dsimp only
      split
      · exact does_throw m _ _
      · exact hbody d

/-- **The machine evaluates as `Expr.eval` says.** The induction is on the stack. The counter that
the evaluation starts from is arbitrary: the body of a function is evaluated with the counter
raised. -/
theorem does_exec (stack : Nat) (m : Machine) (frame : Frame) (e : Expr) :
    (exec stack frame e).Does m (e.eval m.context stack m.depth frame) := by
  induction stack using Nat.strongRecOn generalizing m frame e with
  | ind stack ih =>
    match stack with
    | 0 => exact does_throw m none .stackExhausted
    | 1 => exact does_throw m none .stackExhausted
    | stack + 2 =>
      cases e with
      | empty loc => exact does_pure m none
      | literal loc v => exact does_pure m (some v)
      | var loc x =>
        rw [exec, Expr.eval]
        cases frame.lookup loc x with
        | ok v => exact does_pure m (some v)
        | error e => exact does_throw m e.loc e.fault
      | branch loc c t e =>
        rw [exec, Expr.eval_branch]
        refine (ih stack (by omega) m frame c).bind fun v => ?_
        cases v with
        | none => exact does_throw _ _ _
        | some v =>
          dsimp only [Expr.choose]
          split
          · exact ih stack (by omega) (m.perform _) frame t
          · exact ih stack (by omega) (m.perform _) frame e
      | call loc f es =>
        -- the machine has recorded the arguments before by the time it comes to one of them
        have hes : ∀ e ∈ es, ∀ m' : Machine, m'.context = m.context → m'.depth = m.depth →
            (exec stack frame e).Does m' (e.eval m.context stack m.depth frame) := by
          intro e _ m' hcx hdepth
          rw [← hcx, ← hdepth]
          exact ih stack (by omega) m' frame e
        rw [exec, Expr.eval_call]
        refine (does_arguments hes 1 m rfl rfl).bind fun args => ?_
        refine Action.Does.calling (o := Expr.callee m.context stack m.depth loc f args) ?_
        refine does_callee rfl fun d => ?_
        cases stack with
        | zero => exact does_throw _ _ _
        | succ stack => exact ih stack (by omega) _ (d.frame args) d.body
      | stray loc node es => exact does_ofOutcome m (node.events_outcome loc m.depth)

/-! ## Runs -/

theorem demanded_eq {m : Machine} (h : m.stack = defaultStack) :
    m.demanded = demandedStack m.maxDepth := by
  unfold demanded demandedStack
  cases m.maxDepth with
  | none => rfl
  | some limit => simp only [h]

theorem run_enlarge {m : Machine} (h : m.stack = defaultStack) :
    enlarge.run.run m =
      if largestStack < demandedStack m.maxDepth then (.error ⟨.stackTooLarge, none⟩, m)
      else (.ok (), m.resize (stackFor m.maxDepth)) := by
  have hlimits : (defaultStack : Int) < largestStack := by decide
  unfold enlarge
  rw [run_get_bind, demanded_eq h, h]
  by_cases hmore : (defaultStack : Int) < demandedStack m.maxDepth
  · have hfor : stackFor m.maxDepth = (demandedStack m.maxDepth).toNat := by
      unfold stackFor
      omega
    rw [if_pos hmore, hfor]
    split <;> rfl
  · have hfor : stackFor m.maxDepth = m.stack := by
      unfold stackFor
      omega
    rw [if_neg hmore, if_neg (by omega), hfor]
    rfl

/-- **The machine runs as `Program.run` says**, from whatever counter and table, and its stack is
put back. -/
theorem run_run (p : Program) {m : Machine} (h : m.stack = defaultStack) :
    (run p).run.run m =
      ((p.run m.maxDepth).outcome.result, (m.load p).perform (p.run m.maxDepth).outcome) := by
  have hstack : (m.load p).stack = defaultStack := h
  have hmax : (m.load p).maxDepth = m.maxDepth := rfl
  unfold run
  rw [run_modify_bind]
  cases hbody : p.entryBody with
  | error e =>
    rw [Program.run_of_entryBody_error hbody, perform_of_nil _ rfl]
    rfl
  | ok body =>
    rw [Program.run_of_entryBody_ok hbody, Action.ofExcept, pure_bind, run_get_bind, run_bind,
      run_enlarge hstack, hmax]
    dsimp only
    by_cases hlarge : largestStack < demandedStack m.maxDepth
    · rw [if_pos hlarge, if_pos hlarge, perform_of_nil _ rfl]
      rfl
    · rw [if_neg hlarge, if_neg hlarge]
      dsimp only
      rw [run_finally, run_get_bind, does_exec]
      rfl

/-! ## Steps -/

/-- No call is open, and the stack has the size that it has without any demand. -/
structure Idle (m : Machine) : Prop where
  depth : m.depth = 0
  stack : m.stack = defaultStack

theorem idle_start (maxDepth : Option Int) : (start maxDepth).Idle := ⟨rfl, rfl⟩

/-- The session that the machine carries on. -/
def session (m : Machine) : Session := ⟨m.table, m.maxDepth, m.depth⟩

/-- The answer that shows an outcome. -/
def Answer.ofOutcome (o : Outcome (Option Int)) : Answer :=
  ⟨o.result.mapError .failed, o.output, Act.events 0 o.acts⟩

theorem answer_of_serve {m m' : Machine} {q : Request} {o : Outcome (Option Int)}
    (h : (serve q).run.run m.clear = (o.result, m'.perform o)) (hdepth : m'.depth = 0)
    (hevents : m'.events = #[]) (hwritten : m'.written = #[]) :
    m.answer (.ok q) = (.ofOutcome o, m'.perform o) := by
  simp only [answer, h]
  simp [perform, hdepth, hevents, hwritten, Answer.ofOutcome, Outcome.output]

/-- **One step of a session.** A machine that is idle answers as the session does that it carries
on, and is idle after it. -/
theorem answer_ok {m : Machine} (h : m.Idle) (q : Request) :
    (m.answer (.ok q)).1 = .ofOutcome (m.session.step q).1 ∧ (m.answer (.ok q)).2.Idle ∧
      (m.answer (.ok q)).2.session = (m.session.step q).2 := by
  have hclear : m.clear.stack = defaultStack := h.stack
  cases q with
  | run p =>
    have hserve : (serve (.run p)).run.run m.clear = _ := run_run p hclear
    rw [answer_of_serve hserve rfl rfl rfl]
    exact ⟨rfl, ⟨rfl, h.stack⟩, rfl⟩
  | evaluate e frame =>
    have hserve : (serve (.evaluate e frame)).run.run m.clear = _ :=
      (does_exec m.clear.stack m.clear frame e).unguarded
    rw [answer_of_serve hserve h.depth rfl rfl, hclear]
    exact ⟨rfl, ⟨h.depth, h.stack⟩, rfl⟩
  | setMaxDepth limit =>
    have hserve : (serve (.setMaxDepth limit)).run.run m.clear = _ :=
      does_pure { m.clear with maxDepth := limit } none
    rw [answer_of_serve hserve h.depth rfl rfl]
    exact ⟨rfl, ⟨h.depth, h.stack⟩, rfl⟩

/-- The program that a step runs. -/
def program? : Except SyntaxError Request → Option Program
  | .ok (.run p) => some p
  | _ => none

/-- The limit that a step sets. -/
def limit? : Except SyntaxError Request → Option (Option Int)
  | .ok (.setMaxDepth limit) => some limit
  | _ => none

/-- The program of the last step that ran one. -/
def lastProgram? (steps : List (Except SyntaxError Request)) : Option Program :=
  (steps.filterMap program?).getLast?

/-- The limit after the steps of a session that began with `maxDepth`. -/
def lastLimit (maxDepth : Option Int) (steps : List (Except SyntaxError Request)) : Option Int :=
  (steps.filterMap limit?).getLast?.getD maxDepth

theorem lastProgram?_concat (steps : List (Except SyntaxError Request))
    (step : Except SyntaxError Request) :
    lastProgram? (steps ++ [step]) = (program? step).or (lastProgram? steps) := by
  unfold lastProgram?
  rw [List.filterMap_append, List.getLast?_append]
  cases h : program? step <;> simp [h]

theorem lastLimit_concat (maxDepth : Option Int) (steps : List (Except SyntaxError Request))
    (step : Except SyntaxError Request) :
    lastLimit maxDepth (steps ++ [step]) = (limit? step).getD (lastLimit maxDepth steps) := by
  unfold lastLimit
  rw [List.filterMap_append, List.getLast?_append]
  cases h : limit? step <;> simp [h]

theorem after_concat (m : Machine) (steps : List (Except SyntaxError Request))
    (step : Except SyntaxError Request) :
    m.after (steps ++ [step]) = ((m.after steps).answer step).2 := by
  unfold after
  rw [List.foldl_concat]

/-- **What is left of a session**: the functions of the last program that was run, and the limit. -/
theorem after_eq (maxDepth : Option Int) (steps : List (Except SyntaxError Request)) :
    ((start maxDepth).after steps).Idle ∧
      ((start maxDepth).after steps).table = (lastProgram? steps).elim .empty Program.table ∧
      ((start maxDepth).after steps).maxDepth = lastLimit maxDepth steps := by
  induction steps using List.reverseRecOn with
  | nil => exact ⟨idle_start maxDepth, rfl, rfl⟩
  | append_singleton steps step ih =>
    obtain ⟨hidle, htable, hlimit⟩ := ih
    rw [after_concat, lastProgram?_concat, lastLimit_concat]
    cases step with
    | error e => exact ⟨hidle, htable, hlimit⟩
    | ok q =>
      obtain ⟨-, hnext, hsession⟩ := answer_ok hidle q
      have htable' := congrArg Session.table hsession
      have hlimit' := congrArg Session.maxDepth hsession
      refine ⟨hnext, htable'.trans ?_, hlimit'.trans ?_⟩
      · cases q with
        | run p => rfl
        | evaluate e frame => exact htable
        | setMaxDepth limit => exact htable
      · cases q with
        | run p => exact hlimit
        | evaluate e frame => exact hlimit
        | setMaxDepth limit => rfl

/-- The functions that an idle machine knows and its limit settle how it evaluates. -/
theorem answer_evaluate {m : Machine} (h : m.Idle) (e : Expr) (frame : Frame) :
    (m.answer (.ok (.evaluate e frame))).1 =
      .ofOutcome (e.eval ⟨m.table, m.maxDepth⟩ defaultStack 0 frame).unguarded := by
  have hanswer := (answer_ok h (.evaluate e frame)).1
  rw [Session.step] at hanswer
  dsimp only [session] at hanswer
  rwa [h.depth] at hanswer

/-- **A session has no history besides its functions.** Let any steps be taken with a new machine,
whichever of them fail and however.

* No call is open after them, and the stack has the size that it had.
* The table is that of the last program that was run, or empty if there was none; the limit is the
  one set last.
* The next program is run as by a new machine with this limit: with the same result or error, the
  same output and the same events, which are those of `Program.run`.
* The next expression is evaluated as `Expr.eval` says outside of a run, and as by any machine,
  after any steps, whose table finds the same definitions and whose limit is the same. -/
theorem answer_without_history (maxDepth : Option Int) (steps : List (Except SyntaxError Request)) :
    let m := (start maxDepth).after steps
    m.depth = 0 ∧ m.stack = defaultStack ∧
    m.table.Lists ((lastProgram? steps).elim [] (·.definitions)) ∧
    m.maxDepth = lastLimit maxDepth steps ∧
    (∀ p, (m.answer (.ok (.run p))).1 = ((start m.maxDepth).answer (.ok (.run p))).1 ∧
      (m.answer (.ok (.run p))).1 = .ofOutcome (p.run m.maxDepth).outcome) ∧
    (∀ e frame, (m.answer (.ok (.evaluate e frame))).1 =
      .ofOutcome (e.eval ⟨m.table, m.maxDepth⟩ defaultStack 0 frame).unguarded) ∧
    ∀ maxDepth' steps', let m' := (start maxDepth').after steps'
      (∀ f, m'.table.find? f = m.table.find? f) → m'.maxDepth = m.maxDepth →
      ∀ e frame, (m'.answer (.ok (.evaluate e frame))).1 =
        (m.answer (.ok (.evaluate e frame))).1 := by
  intro m
  obtain ⟨hidle, htable, hlimit⟩ := after_eq maxDepth steps
  refine ⟨hidle.depth, hidle.stack, ?_, hlimit, ?_, answer_evaluate hidle, ?_⟩
  · rw [htable]
    cases lastProgram? steps with
    | none => exact Table.lists_empty
    | some p => exact p.lists_table
  · intro p
    have hanswer := (answer_ok hidle (.run p)).1
    have hfresh := (answer_ok (idle_start m.maxDepth) (.run p)).1
    exact ⟨hanswer.trans hfresh.symm, hanswer⟩
  · intro maxDepth' steps' m' hfind hmax e frame
    obtain ⟨hidle', -, -⟩ := after_eq maxDepth' steps'
    have heval := Expr.eval_eq_of_agree (fun _ => True) (fun f _ _ => hfind f)
      (fun _ _ _ _ => trivial) m.maxDepth defaultStack 0 frame e (fun _ _ => trivial)
    rw [answer_evaluate hidle', answer_evaluate hidle, hmax, heval]

/-- After a run that failed with a call open, a text that could not be read and a change of the
limit, an expression is evaluated as after a run that met no limit. -/
theorem answer_without_history_failed_run :
    ∃ (p : Program) (unread : SyntaxError) (e : Expr) (frame : Frame),
      let steps := [.ok (.run p), .error unread, .ok (.setMaxDepth none)]
      ((start (some 1)).answer (.ok (.run p))).1.result = .error (.failed ⟨.tooDeep, none⟩) ∧
      ((start none).answer (.ok (.run p))).1.result = .ok (some 5) ∧
      ((start (some 1)).after steps).depth = 0 ∧
      (((start none).after [.ok (.run p)]).answer (.ok (.evaluate e frame))).1 =
        (((start (some 1)).after steps).answer (.ok (.evaluate e frame))).1 ∧
      (((start none).after [.ok (.run p)]).answer (.ok (.evaluate e frame))).1.result =
        .ok (some 7) := by
  let p : Program := ⟨none, [⟨none, "main", [], .call none "f" [.literal none 5]⟩,
    ⟨none, "f", [⟨none, "x"⟩], .call none "g" [.var none "x"]⟩,
    ⟨none, "g", [⟨none, "x"⟩], .var none "x"⟩]⟩
  let unread : SyntaxError := ⟨.endOfInput, .start "session"⟩
  let steps : List (Except SyntaxError Request) :=
    [.ok (.run p), .error unread, .ok (.setMaxDepth none)]
  obtain ⟨hdepth, -, -, hlimit, -, -, hagree⟩ := answer_without_history (some 1) steps
  obtain ⟨-, htable, -⟩ := after_eq (some 1) steps
  obtain ⟨-, htable', hlimit'⟩ := after_eq none [.ok (.run p)]
  refine ⟨p, unread, .call none "f" [.literal none 7], .ofBindings "main" [], by decide +kernel,
    by decide +kernel, hdepth, ?_, by decide +kernel⟩
  refine hagree none [.ok (.run p)] ?_ (hlimit'.trans hlimit.symm) _ _
  intro f
  rw [htable, htable']
  rfl

end Machine

end Wordlet
