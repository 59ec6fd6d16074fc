import Wordlet.Eval.Run

/-!
# Sessions

A session runs programs and evaluates single expressions in turn. It keeps the functions of the last
program that it was given to run, also when that run failed, and a depth limit that can be changed.
Nothing else passes from one step to the next.
-/

namespace Wordlet

/-- The state of a session between two steps. -/
structure Session where
  table : Table
  maxDepth : Option Int
  /-- The number of calls that are open. -/
  depth : Nat
deriving Inhabited

/-- What a session is asked to do. -/
inductive Request where
  | run (program : Program)
  | evaluate (expr : Expr) (frame : Frame)
  | setMaxDepth (limit : Option Int)
deriving Inhabited

namespace Session

/-- A session without functions. -/
def start (maxDepth : Option Int) : Session := ⟨.empty, maxDepth, 0⟩

/-- One step: the outcome and the state after it. A run reports that its stack is used up as an
error of the language; the evaluation of a single expression does not. -/
def step (s : Session) : Request → Outcome (Option Int) × Session
  | .run p => ((p.run s.maxDepth).outcome, { s with table := p.table, depth := 0 })
  | .evaluate e frame =>
    ((e.eval ⟨s.table, s.maxDepth⟩ defaultStack s.depth frame).unguarded, s)
  | .setMaxDepth limit => (.value none, { s with maxDepth := limit })

end Session

end Wordlet
