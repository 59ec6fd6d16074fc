import Wordlet.Eval.Eval

/-!
# Runs

A run evaluates the body of the entry point. It is refused when there is none or when it declares
parameters. A depth limit sets the size of the stack, eight frames for each call over a fixed
reserve. A limit whose stack would be too large, or which is no number, is refused once the run
has begun.
-/

namespace Wordlet

/-- A run: whether evaluation was begun at all, and the outcome. -/
structure Run where
  begun : Bool
  outcome : Outcome (Option Int)
deriving Inhabited

/-- The stack that there is without any demand. -/
def defaultStack : Nat := 1000

/-- The largest stack. -/
def largestStack : Nat := 2147483647

/-- The stack of a run without a depth limit. -/
def unlimitedStack : Nat := 400000

/-- The frames of the stack set aside for each call that the depth limit allows. -/
def framesPerCall : Nat := 8

/-- The stack that a depth limit asks for. -/
def demandedStack (maxDepth : Option Int) : Int :=
  match maxDepth with
  | none => unlimitedStack
  | some limit => limit * framesPerCall + defaultStack

/-- The stack of a run: what the depth limit asks for, and never less than the default. -/
def stackFor (maxDepth : Option Int) : Nat :=
  max defaultStack (demandedStack maxDepth).toNat

namespace Program

/-- The body of the entry point, if the program can be run. -/
def entryBody (p : Program) : Except EvalError Expr :=
  match p.table.find? entryPoint with
  | none => .error ⟨.noEntryPoint, p.loc⟩
  | some d =>
    if d.parameters.isEmpty then .ok d.body
    else .error ⟨.entryPointParameters d.arity, d.loc⟩

/-- Begins a run, if the program can be run, and goes on with the body of the entry point. -/
def enter (p : Program) (go : Expr → Outcome (Option Int)) : Run :=
  match p.entryBody with
  | .error e => ⟨false, ⟨[], .error e⟩⟩
  | .ok body => ⟨true, go body⟩

/-- Runs a program under a depth limit. -/
def run (p : Program) (maxDepth : Option Int) : Run :=
  p.enter fun body =>
    if largestStack < demandedStack maxDepth then .fault none .stackTooLarge
    else body.eval ⟨p.table, maxDepth⟩ (stackFor maxDepth) 0 (.ofBindings entryPoint [])

/-- Runs a program under a depth limit that is no number. -/
def runWithoutValue (p : Program) : Run := p.enter fun _ => .fault none .limitWithoutValue

end Program

end Wordlet
