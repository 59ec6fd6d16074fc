import Wordlet.Eval.Session
import Wordlet.Syntax.Parse

/-!
# A machine for sessions

A machine carries out the requests of a session. It has one counter of open calls, which a call
raises when it begins and lowers when it ends, with a value or with an error. It has one stack,
which a run makes larger and puts back. It records the boundaries of calls, at the depth that the
counter shows, and the values written.

* `Machine.exec`: evaluates an expression.
* `Machine.run`: runs a program.
* `Machine.answer`: one step of a session, and the machine after it.
-/

namespace Wordlet

/-- The state of a machine. -/
structure Machine where
  table : Table
  maxDepth : Option Int
  /-- The number of calls that are open. -/
  depth : Nat
  /-- The frames of the stack that an evaluation may take. -/
  stack : Nat
  /-- The boundaries of calls in the present step. -/
  events : Array Event
  /-- The values written in the present step. -/
  written : Array Int
deriving Inhabited

namespace Machine

/-- A machine that knows no functions. -/
def start (maxDepth : Option Int) : Machine := ⟨.empty, maxDepth, 0, defaultStack, #[], #[]⟩

/-- What evaluations take place in. -/
def context (m : Machine) : Context := ⟨m.table, m.maxDepth⟩

/-- One more call is open. -/
def raise (m : Machine) : Machine := { m with depth := m.depth + 1 }

/-- One call less is open. -/
def lower (m : Machine) : Machine := { m with depth := m.depth - 1 }

/-- Records the beginning of a call. -/
def enter (m : Machine) (loc : Option Location) (f : String) (args : List Int) : Machine :=
  { m with events := m.events.push (.enter f m.depth args loc) }

/-- Records the end of a call. -/
def exit (m : Machine) (f : String) (result : Option Int) : Machine :=
  { m with events := m.events.push (.exit f m.depth result) }

/-- Records values that are written. -/
def write (m : Machine) (values : List Int) : Machine :=
  { m with written := m.written ++ values.toArray }

/-- Takes over the functions of a program; no call is open. -/
def load (m : Machine) (p : Program) : Machine := { m with table := p.table, depth := 0 }

/-- Sets the size of the stack. -/
def resize (m : Machine) (stack : Nat) : Machine := { m with stack }

/-- Forgets what the step before has recorded. -/
def clear (m : Machine) : Machine := { m with events := #[], written := #[] }

/-- What a machine does. It may fail, and then its state stays as it is at that moment. -/
abbrev Action := ExceptT EvalError (StateM Machine)

/-- Goes on with a value, or fails. -/
def Action.ofExcept {α : Type} : Except EvalError α → Action α
  | .ok a => pure a
  | .error e => throw e

/-- Writes what the outcome writes and ends as it does. -/
def Action.ofOutcome {α : Type} (o : Outcome α) : Action α := do
  modify (·.write (Act.written o.acts))
  Action.ofExcept o.result

/-- A call of `f` with the values `args`, in which `inside` happens. The counter is lowered in the
end, however the call ends. -/
def calling (loc : Option Location) (f : String) (args : List Int)
    (inside : Action (Option Int)) : Action (Option Int) := do
  modify raise
  try
    let m ← get
    if m.context.forbids m.depth then throw ⟨.tooDeep, loc⟩
    modify (·.enter loc f args)
    let v ← inside
    modify (·.exit f v)
    pure v
  finally
    modify lower

/-- The values of the arguments of a call of `f`, the first of which has the number `index`; `exec`
evaluates one. -/
def arguments (exec : Expr → Action (Option Int)) (f : String) : Nat → List Expr → Action (List Int)
  | _, [] => return []
  | index, e :: es => do
    match ← exec e with
    | none => throw ⟨.argumentWithoutValue index f, e.loc⟩
    | some v => return v :: (← arguments exec f (index + 1) es)

/-- What a call of `f` leads to: a native, or else the definition of `f` in force, whose body is
evaluated by `body`. -/
def callee (loc : Option Location) (f : String) (args : List Int)
    (body : Definition → Action (Option Int)) : Action (Option Int) :=
  match Native.find? f with
  | some n => Action.ofOutcome (n.outcome loc args)
  | none => do
    match (← get).table.find? f with
    | none => throw ⟨.unknownFunction f, loc⟩
    | some d =>
      if d.arity ≠ args.length then throw ⟨.arityMismatch f d.arity args.length, loc⟩
      else body d

/-- Evaluates an expression in a frame, with `stack` frames of the stack left. -/
def exec : (stack : Nat) → Frame → Expr → Action (Option Int)
  | 0, _, _ => throw ⟨.stackExhausted, none⟩
  | 1, _, _ => throw ⟨.stackExhausted, none⟩
  | stack + 2, frame, e =>
    match e with
    | .empty _ => return none
    | .literal _ v => return some v
    | .var loc x => return some (← Action.ofExcept (frame.lookup loc x))
    | .branch loc c t e => do
      match ← exec stack frame c with
      | none => throw ⟨.conditionWithoutValue, loc⟩
      | some v => if v = 1 then exec stack frame t else exec stack frame e
    | .call loc f es => do
      let args ← arguments (exec stack frame) f 1 es
      calling loc f args <| callee loc f args fun d =>
        match stack with
        | 0 => throw ⟨.stackExhausted, none⟩
        | stack + 1 => exec stack (d.frame args) d.body
    | .stray loc node _ => Action.ofOutcome (node.outcome loc)

/-- The stack that a run asks for. -/
def demanded (m : Machine) : Int :=
  match m.maxDepth with
  | none => unlimitedStack
  | some limit => limit * framesPerCall + m.stack

/-- Makes the stack as large as a run asks for, if it is not. -/
def enlarge : Action Unit := do
  let m ← get
  if m.stack < m.demanded then
    if largestStack < m.demanded then throw ⟨.stackTooLarge, none⟩
    else set (m.resize m.demanded.toNat)

/-- Runs a program. Its functions stay when the run is over, also when it failed; the stack is put
back. -/
def run (p : Program) : Action (Option Int) := do
  modify (·.load p)
  let body ← Action.ofExcept p.entryBody
  let before ← get
  enlarge
  try
    exec (← get).stack (.ofBindings entryPoint []) body
  finally
    modify (·.resize before.stack)

/-- Carries out a request. -/
def serve : Request → Action (Option Int)
  | .run p => run p
  | .evaluate e frame => ExceptT.adapt EvalError.unguarded do exec (← get).stack frame e
  | .setMaxDepth limit => do
    modify ({ · with maxDepth := limit })
    return none

/-- Why a step of a session fails. -/
inductive Failure where
  /-- The text of the program or of the expression cannot be read. -/
  | unread (error : SyntaxError)
  | failed (error : EvalError)
deriving DecidableEq, Repr

/-- What a step of a session shows. -/
structure Answer where
  result : Except Failure (Option Int)
  output : List String
  events : List Event

/-- One step of a session. A text that cannot be read does not reach the machine. -/
def answer (m : Machine) : Except SyntaxError Request → Answer × Machine
  | .error e => (⟨.error (.unread e), [], []⟩, m)
  | .ok q =>
    let (result, after) := (serve q).run.run m.clear
    (⟨result.mapError .failed, after.written.toList.map Text.decimal, after.events.toList⟩, after)

/-- The machine after the steps of a session. -/
def after (m : Machine) (steps : List (Except SyntaxError Request)) : Machine :=
  steps.foldl (fun m step => (m.answer step).2) m

end Machine

end Wordlet
