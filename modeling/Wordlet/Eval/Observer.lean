import Wordlet.Eval.Log

/-!
# Observers

An observer is told of each boundary of a call while a run is going on: once the arguments have
their values and the call is not nested too deep, and again when the call has ended with a value. A
call that is cut short has no end that an observer could see. An observer that fails ends the run.

Nothing keeps an observer from taking part in a run: to tell it takes some of the stack, and it is
handed the arguments of the call themselves, which it may change.

* `Observer.idle`, `Observer.recording`, `Observer.logging`: the observers that there are.
* `Observer.Bystander`: an observer that takes no part.
* `Watched.eval`: an evaluation that tells an observer of its calls.
* `Program.watch`: a run that does.
-/

namespace Wordlet

/-- What is told of the boundaries of calls. It keeps something from one boundary to the next. -/
structure Observer (σ : Type) where
  /-- What is kept before the first call. -/
  start : σ
  /-- What is kept after a boundary, or why the observer fails there. -/
  notice : σ → Event → Except Fault σ
  /-- The frames of the stack that it takes to tell of a boundary, beyond those that the call takes
  anyway. -/
  frames : Event → Nat := fun _ => 0
  /-- The arguments of a call as they are left once it was told that the call begins. -/
  leave : σ → List Int → List Int := fun _ args => args

namespace Observer

/-- What is asked of an observer: it watches a run without taking part in it. It leaves the
arguments of calls as they are, and an error of its own is none of the language. -/
structure Bystander {σ : Type} (observer : Observer σ) : Prop where
  leave_eq : ∀ seen args, observer.leave seen args = args
  isForeign : ∀ seen e x, observer.notice seen e = .error x → x.isForeign = true

/-- The observer that does nothing. It is the one that a run has if none is given. -/
def idle : Observer Unit where
  start := ()
  notice _ _ := .ok ()

/-- The observer that keeps every boundary. -/
def recording : Observer (Array Event) where
  start := #[]
  notice events e := .ok (events.push e)

/-- The observer that logs every boundary at a level. How many frames it takes to tell depends on
the sink. -/
def logging (level : Level) (sink : Sink) (frames : Event → Nat) : Observer (Array LogRecord) where
  start := #[]
  notice log e :=
    if e.stops (sink.refuses level) then .error .numberTooLong
    else .ok (log ++ (sink.record? level e).toArray)
  frames

end Observer

/-- What a run leaves while it is going on: what its observer keeps, and the values written. -/
structure Watch (σ : Type) where
  seen : σ
  written : Array Int
deriving Inhabited

/-- The texts that were written. -/
def Watch.output {σ : Type} (w : Watch σ) : List String := w.written.toList.map Text.decimal

/-- A part of a run that is watched. When it fails, what it left stays. -/
abbrev Watched (σ : Type) := ExceptT EvalError (StateM (Watch σ))

namespace Watched

variable {σ α : Type}

/-- Goes on with a value, or fails. -/
def ofExcept : Except EvalError α → Watched σ α
  | .ok a => pure a
  | .error e => throw e

/-- Writes what the outcome writes and ends as it does. -/
def ofOutcome (o : Outcome α) : Watched σ α := do
  modify fun w => { w with written := w.written ++ (Act.written o.acts).toArray }
  ofExcept o.result

/-- What the observer does at a boundary. -/
def notify (observer : Observer σ) (e : Event) : Watched σ Unit := do
  let w ← get
  match observer.notice w.seen e with
  | .ok seen => set { w with seen }
  | .error x => throw ⟨x, none⟩

/-- Tells the observer of a boundary, with `stack` frames of the stack left. -/
def tell (observer : Observer σ) (stack : Nat) (e : Event) : Watched σ Unit :=
  if stack < observer.frames e then throw ⟨.stackExhausted, none⟩ else notify observer e

/-- A call of `f` with the values `args`, while `depth` calls are open around it. What happens
inside has the arguments that the observer leaves. -/
def calling (observer : Observer σ) (cx : Context) (stack depth : Nat) (loc : Option Location)
    (f : String) (args : List Int) (inside : List Int → Watched σ (Option Int)) :
    Watched σ (Option Int) := do
  if cx.forbids (depth + 1) then throw ⟨.tooDeep, loc⟩
  else
    tell observer stack (.enter f (depth + 1) args loc)
    let v ← inside (observer.leave (← get).seen args)
    tell observer stack (.exit f (depth + 1) v)
    return v

/-- The values of the arguments of a call of `f`, the first of which has the number `index`; `eval`
evaluates one. -/
def arguments (eval : Expr → Watched σ (Option Int)) (f : String) :
    Nat → List Expr → Watched σ (List Int)
  | _, [] => return []
  | index, e :: es => do
    match ← eval e with
    | none => throw ⟨.argumentWithoutValue index f, e.loc⟩
    | some v => return v :: (← arguments eval f (index + 1) es)

/-- What a call of `f` leads to: a native, or else the definition of `f` in force, whose body is
evaluated by `body`. -/
def callee (cx : Context) (loc : Option Location) (f : String) (args : List Int)
    (body : Definition → Watched σ (Option Int)) : Watched σ (Option Int) :=
  match Native.find? f with
  | some n => ofOutcome (n.outcome loc args)
  | none =>
    match cx.table.find? f with
    | none => throw ⟨.unknownFunction f, loc⟩
    | some d =>
      if d.arity ≠ args.length then throw ⟨.arityMismatch f d.arity args.length, loc⟩ else body d

/-- Evaluates an expression in a frame, with `stack` frames of the stack left and `depth` calls
open. -/
def eval (observer : Observer σ) (cx : Context) :
    (stack : Nat) → (depth : Nat) → Frame → Expr → Watched σ (Option Int)
  | 0, _, _, _ => throw ⟨.stackExhausted, none⟩
  | 1, _, _, _ => throw ⟨.stackExhausted, none⟩
  | stack + 2, depth, frame, e =>
    match e with
    | .empty _ => return none
    | .literal _ v => return some v
    | .var loc x => return some (← ofExcept (frame.lookup loc x))
    | .branch loc c t e => do
      match ← eval observer cx stack depth frame c with
      | none => throw ⟨.conditionWithoutValue, loc⟩
      | some v =>
        if v = 1 then eval observer cx stack depth frame t
        else eval observer cx stack depth frame e
    | .call loc f es => do
      let args ← arguments (eval observer cx stack depth frame) f 1 es
      calling observer cx stack depth loc f args fun args => callee cx loc f args fun d =>
        match stack with
        | 0 => throw ⟨.stackExhausted, none⟩
        | stack + 1 => eval observer cx stack (depth + 1) (d.frame args) d.body
    | .stray loc node _ => ofOutcome (node.outcome loc)

end Watched

namespace Program

/-- Runs a program under a depth limit, with an observer. -/
def watching {σ : Type} (p : Program) (observer : Observer σ) (maxDepth : Option Int) :
    Watched σ (Option Int) := do
  let body ← Watched.ofExcept p.entryBody
  if largestStack < demandedStack maxDepth then throw ⟨.stackTooLarge, none⟩
  else
    Watched.eval observer ⟨p.table, maxDepth⟩ (stackFor maxDepth) 0 (.ofBindings entryPoint []) body

/-- How a run with an observer ends, and what it leaves. -/
def watch {σ : Type} (p : Program) (observer : Observer σ) (maxDepth : Option Int) :
    Except EvalError (Option Int) × Watch σ :=
  (p.watching observer maxDepth).run.run ⟨observer.start, #[]⟩

end Program

end Wordlet
