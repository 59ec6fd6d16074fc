import Wordlet.Location

/-!
# What happens during an evaluation

An evaluation makes calls, which make calls in turn, and writes values. An `Act` is one of these,
and a call holds the acts that happen while it is open, so that calls nest by construction. A fault
cuts short all calls that are open when it arises.

* `Act.written` — the values written, in order.
* `Act.events` — the boundaries of the calls, in order, with their depths.
-/

namespace Wordlet

/-- How a call ends: with the value returned, if any, or cut short by a fault. -/
inductive Ending where
  | returned (value : Option Int)
  | cutShort
deriving DecidableEq, Repr, Inhabited

/-- Something that happens during an evaluation. -/
inductive Act where
  /-- A value is written. -/
  | write (value : Int)
  /-- A function is called with arguments; `inner` happens until the call ends. -/
  | call (loc : Option Location) (function : String) (arguments : List Int) (inner : List Act)
      (ending : Ending)
deriving Repr, Inhabited

/-- A boundary of a call; `depth` counts the calls that are open, this one included. -/
inductive Event where
  | enter (function : String) (depth : Nat) (arguments : List Int) (loc : Option Location)
  | exit (function : String) (depth : Nat) (result : Option Int)
deriving DecidableEq, Repr, Inhabited

namespace Act

mutual

/-- The values that an act writes. -/
def writtenBy : Act → List Int
  | write v => [v]
  | call _ _ _ inner _ => written inner

/-- The values that acts write, in order. -/
def written : List Act → List Int
  | [] => []
  | a :: as => a.writtenBy ++ written as

end

/-- What is written in turn is written together. -/
@[simp] theorem written_append (as bs : List Act) :
    written (as ++ bs) = written as ++ written bs := by
  induction as with
  | nil => rfl
  | cons a as ih => simp [written, ih]

/-- The event at the end of a call, if it is not cut short. -/
def exitEvent (function : String) (depth : Nat) : Ending → List Event
  | .returned v => [.exit function depth v]
  | .cutShort => []

mutual

/-- The events of an act, while `depth` calls are open around it. -/
def eventsOf (depth : Nat) : Act → List Event
  | write _ => []
  | call loc f args inner ending =>
    .enter f (depth + 1) args loc :: (events (depth + 1) inner ++ exitEvent f (depth + 1) ending)

/-- The events of acts, while `depth` calls are open around them. -/
def events (depth : Nat) : List Act → List Event
  | [] => []
  | a :: as => a.eventsOf depth ++ events depth as

end

/-- Events of acts in turn follow one another. -/
@[simp] theorem events_append (depth : Nat) (as bs : List Act) :
    events depth (as ++ bs) = events depth as ++ events depth bs := by
  induction as with
  | nil => rfl
  | cons a as ih => simp [events, ih]

end Act

end Wordlet
