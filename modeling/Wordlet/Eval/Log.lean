import Wordlet.Eval.Run
import Wordlet.Text.Numeral

/-!
# Logs

A log shows a run as lines of text: one for each boundary of a call, indented by its depth, between
a first line that counts the functions and a last line that gives the value. A sink takes the
records. It drops those below its threshold, and those that cannot be written: an integer may have
too many digits.

Logging a run can end it. The arguments of a call are written before the sink is asked, and a strict
sink does not drop what cannot be written, but fails. `Run.logged` is the run as it goes when it is
logged, and `Run.log` is what the log then holds. The frames of the stack that logging takes are no
part of it.
-/

namespace Wordlet

/-- How much a record matters. -/
inductive Level where
  | debug
  | info
  | warning
  | error
  | critical
deriving DecidableEq, Repr, Inhabited

namespace Level

/-- The rank of a level: the more a record matters, the higher. -/
def rank : Level → Nat
  | debug => 10
  | info => 20
  | warning => 30
  | error => 40
  | critical => 50

/-- The name of a level. -/
def name : Level → String
  | debug => "DEBUG"
  | info => "INFO"
  | warning => "WARNING"
  | error => "ERROR"
  | critical => "CRITICAL"

/-- A record of the level is kept under the threshold. -/
def reaches (level threshold : Level) : Bool := threshold.rank ≤ level.rank

/-- The level of a name. -/
def ofName? (name : String) : Option Level :=
  [debug, info, warning, error, critical].find? (·.name == name)

end Level

/-- Who writes a record: the run as a whole, or its calls. -/
inductive Channel where
  | run
  | calls
deriving DecidableEq, Repr, Inhabited

/-- The name of a channel. -/
def Channel.name : Channel → String
  | run => "idem.interpreter"
  | calls => "idem.trace"

/-- A line of a log. -/
structure LogRecord where
  channel : Channel
  level : Level
  text : String
deriving DecidableEq, Repr, Inhabited

/-- What takes the records of a run. -/
structure Sink where
  /-- The level that a record must reach to be kept. -/
  threshold : Level
  /-- A record that is kept and cannot be written is a failure; otherwise it is left out. -/
  strict : Bool
deriving DecidableEq, Repr, Inhabited

namespace Sink

/-- The sink that there is if no other is given. It never fails. -/
def standard (threshold : Level) : Sink := ⟨threshold, false⟩

/-- Records of the level are kept. -/
def keeps (sink : Sink) (level : Level) : Bool := level.reaches sink.threshold

/-- The sink fails at a record of the level that cannot be written. -/
def refuses (sink : Sink) (level : Level) : Bool := sink.strict && sink.keeps level

end Sink

namespace Event

/-- Two spaces for each open call. -/
def margin (depth : Nat) : String := String.ofList (List.replicate (2 * depth) ' ')

/-- The line of an event. -/
def line : Event → String
  | enter f depth args loc =>
    margin depth ++ "→ " ++ f ++ "(" ++ ", ".intercalate (args.map Text.decimal) ++ ") at " ++
      Location.textOrNone loc
  | exit f depth (some v) => margin depth ++ "← " ++ f ++ " = " ++ Text.decimal v
  | exit f depth none => margin depth ++ "← " ++ f ++ " = ∅"

/-- The integers of an event can be written. -/
def hasDecimal : Event → Bool
  | enter _ _ args _ => args.all Text.hasDecimal
  | exit _ _ v => v.all Text.hasDecimal

/-- To log the event ends the run. The arguments of a call are written in any case, its value only
by the sink, which may refuse a record that cannot be written. -/
def stops (refused : Bool) : Event → Bool
  | enter _ _ args _ => !args.all Text.hasDecimal
  | exit _ _ v => refused && !v.all Text.hasDecimal

end Event

namespace Sink

/-- The record of an event at a level, if the sink holds one. -/
def record? (sink : Sink) (level : Level) (e : Event) : Option LogRecord :=
  if sink.keeps level && e.hasDecimal then some ⟨.calls, level, e.line⟩ else none

/-- A record on the run as a whole. -/
def note (sink : Sink) (text : String) : List LogRecord :=
  if sink.keeps .debug then [⟨.run, .debug, text⟩] else []

end Sink

/-- The texts that an evaluation writes. -/
def Outcome.output {α : Type} (o : Outcome α) : List String :=
  (Act.written o.acts).map Text.decimal

/-- The end of a call can be logged. -/
def Ending.hasDecimal : Ending → Bool
  | returned v => v.all Text.hasDecimal
  | cutShort => true

namespace Act

mutual

/-- What is left of an act when its calls are logged, to a sink that refuses what cannot be written
or does not. -/
def logged (refused : Bool) : Act → Outcome Unit
  | write v => ⟨[write v], .ok ()⟩
  | call loc f args inner ending =>
    if args.all Text.hasDecimal then
      match loggedAll refused inner with
      | ⟨acts, .error e⟩ => ⟨[call loc f args acts .cutShort], .error e⟩
      | ⟨acts, .ok ()⟩ =>
        if refused && !ending.hasDecimal then
          ⟨[call loc f args acts .cutShort], .error ⟨.numberTooLong, none⟩⟩
        else ⟨[call loc f args acts ending], .ok ()⟩
    else .fault none .numberTooLong

/-- What is left of acts when their calls are logged. -/
def loggedAll (refused : Bool) : List Act → Outcome Unit
  | [] => .value ()
  | a :: as => (a.logged refused).andThen fun _ => loggedAll refused as

end

end Act

namespace Run

/-- A run as it goes when it is logged. With a level in `calls`, the calls are logged at that
level. -/
def logged (r : Run) (calls : Option Level) (sink : Sink) : Run :=
  let acts := match calls with
    | some level => Act.loggedAll (sink.refuses level) r.outcome.acts
    | none => ⟨r.outcome.acts, .ok ()⟩
  let close (v : Option Int) : Outcome (Option Int) :=
    if sink.refuses .debug && !v.all Text.hasDecimal then .fault none .numberTooLong
    else .value v
  { r with outcome := acts.andThen fun _ => (⟨[], r.outcome.result⟩ : Outcome _).andThen close }

/-- The events of a run. -/
def events (r : Run) : List Event := Act.events 0 r.outcome.acts

/-- The texts that a run writes. -/
def output (r : Run) : List String := r.outcome.output

/-- The line before the first call. -/
def openingLine (functions : Nat) : String := "running " ++ toString functions ++ " function(s)"

/-- The line after the last call of a run that gives `value`. -/
def closingLine : Option Int → String
  | some v => "main returned " ++ Text.decimal v
  | none => "main returned None"

/-- The records on the run as a whole that come after its calls. -/
def closing (r : Run) (sink : Sink) : List LogRecord :=
  match r.outcome.result with
  | .ok v => if v.all Text.hasDecimal then sink.note (closingLine v) else []
  | .error _ => []

/-- The records that the sink holds after a run of a program with `functions` functions. With a
level in `calls`, the calls are logged at that level. -/
def log (r : Run) (functions : Nat) (calls : Option Level) (sink : Sink) : List LogRecord :=
  if r.begun then
    let lines := match calls with
      | some level => r.events.filterMap (sink.record? level)
      | none => []
    sink.note (openingLine functions) ++ lines ++ r.closing sink
  else []

end Run

end Wordlet
