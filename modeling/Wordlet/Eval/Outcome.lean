import Wordlet.Eval.Act
import Wordlet.Eval.Fault

/-!
# Outcomes

An outcome is what an evaluation leaves: the acts that happened, and a value or an error. Acts that
happened before an error stay.
-/

namespace Wordlet

/-- The acts of an evaluation and its value or error. -/
structure Outcome (α : Type) where
  acts : List Act
  result : Except EvalError α
deriving Inhabited

namespace Outcome

variable {α β : Type}

/-- A value without acts. -/
@[inline] def value (a : α) : Outcome α := ⟨[], .ok a⟩

/-- A fault without acts. -/
@[inline] def fault (loc : Option Location) (f : Fault) : Outcome α := ⟨[], .error ⟨f, loc⟩⟩

/-- Goes on after a value; an error ends the evaluation. -/
@[inline] def andThen (o : Outcome α) (f : α → Outcome β) : Outcome β :=
  match o with
  | ⟨acts, .error e⟩ => ⟨acts, .error e⟩
  | ⟨acts, .ok a⟩ =>
    let o' := f a
    ⟨acts ++ o'.acts, o'.result⟩

@[simp] theorem value_andThen (a : α) (f : α → Outcome β) : (value a).andThen f = f a := by
  simp [value, andThen]

@[simp] theorem fault_andThen (loc : Option Location) (x : Fault) (f : α → Outcome β) :
    (fault loc x : Outcome α).andThen f = fault loc x := rfl

/-- How a call with this result ends. -/
def ending : Except EvalError (Option Int) → Ending
  | .ok v => .returned v
  | .error _ => .cutShort

/-- The outcome of a call whose inside has the outcome `o`. -/
@[inline] def ofCall (loc : Option Location) (function : String) (arguments : List Int)
    (o : Outcome (Option Int)) : Outcome (Option Int) :=
  ⟨[.call loc function arguments o.acts (ending o.result)], o.result⟩

/-- The outcome of an evaluation that is no run. -/
def unguarded (o : Outcome α) : Outcome α := ⟨o.acts, o.result.mapError .unguarded⟩

end Outcome

end Wordlet
