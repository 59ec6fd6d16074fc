import Wordlet.Report
import Wordlet.Text.Numeral

/-!
# Faults of a run

A run or an evaluation can fail in a fixed number of ways. A fault is a cause; its wording is
`Fault.message`, and `EvalError` adds the place.
-/

namespace Wordlet

/-- Why an evaluation fails. -/
inductive Fault where
  /-- The program has no entry point. -/
  | noEntryPoint
  /-- The entry point declares parameters. -/
  | entryPointParameters (count : Nat)
  /-- The stack that the depth limit asks for is larger than a stack can be. -/
  | stackTooLarge
  /-- A depth limit is set, but to no number. -/
  | limitWithoutValue
  /-- A variable has no binding in the frame of `function`. -/
  | unbound (name function : String)
  /-- An argument of a call, counted from one, has no value. -/
  | argumentWithoutValue (index : Nat) (function : String)
  /-- The condition of a branch has no value. -/
  | conditionWithoutValue
  | unknownFunction (name : String)
  | arityMismatch (function : String) (accepted received : Nat)
  /-- A call is nested deeper than the limit allows. -/
  | tooDeep
  /-- The stack of a run is used up before the depth limit is reached. -/
  | stackExhausted
  /-- The stack is used up outside of a run, where nothing turns this into an error of the
  language. -/
  | stackOverflow
  /-- A node of this kind is no expression. -/
  | notAnExpression (kind : String)
  /-- A node without meaning is taken for an expression and lacks this part of it. -/
  | missingPart (part : String)
  /-- An integer to be written has too many digits. -/
  | numberTooLong
deriving DecidableEq, Repr, Inhabited

namespace Fault

/-- The wording of a fault. -/
def message : Fault → String
  | noEntryPoint => "no " ++ inQuotes entryPoint ++ " function"
  | entryPointParameters n =>
    "function " ++ inQuotes entryPoint ++ " must not accept arguments but declares " ++ toString n
  | stackTooLarge => "Python int too large to convert to C int"
  | limitWithoutValue => "can only concatenate list (not \"int\") to list"
  | unbound x f => "unbound variable " ++ inQuotes x ++ " in function " ++ inQuotes f
  | argumentWithoutValue i f =>
    "parameter " ++ toString i ++ " of " ++ inQuotes f ++ " yields no value"
  | conditionWithoutValue => "branch condition yields no value"
  | unknownFunction f => "unknown function " ++ inQuotes f
  | arityMismatch f accepted received => arityMessage f accepted received
  | tooDeep | stackExhausted => "maximum call depth exceeded"
  | stackOverflow => "maximum recursion depth exceeded"
  | notAnExpression kind => "cannot evaluate " ++ kind ++ " node"
  | missingPart part => "'ASTNode' object has no attribute '" ++ part ++ "'"
  | numberTooLong => Text.tooManyDigits none

/-- The fault is not foreseen: it ends the program instead of being reported. -/
def isUnforeseen : Fault → Bool
  | stackTooLarge | limitWithoutValue | missingPart _ | stackOverflow => true
  | _ => false

/-- The fault is none of the language: what carries out the evaluation fails by itself. -/
def isForeign : Fault → Bool
  | stackTooLarge | limitWithoutValue | missingPart _ | numberTooLong | stackOverflow => true
  | _ => false

end Fault

/-- A fault and its place, if it has one. -/
structure EvalError where
  fault : Fault
  loc : Option Location
deriving DecidableEq, Repr, Inhabited

/-- The error as it leaves an evaluation that is no run: there the stack is used up without being
noticed. -/
def EvalError.unguarded (e : EvalError) : EvalError :=
  if e = ⟨.stackExhausted, none⟩ then ⟨.stackOverflow, none⟩ else e

/-- The text of an evaluation error. -/
def EvalError.text (e : EvalError) : String := Location.head e.loc e.fault.message

end Wordlet
