import Wordlet.Eval.Frame
import Wordlet.Eval.Outcome

/-!
# Evaluation

Evaluation is by value, from left to right, and every call has a frame of its own. Two limits bound
it. The depth limit counts the calls that are open. The stack counts what an evaluation in progress
takes: two frames for each expression, and one more for the body of a defined function. The stack is
what evaluation recurses on, so every evaluation ends.

* `Expr.eval` — the outcome of an expression in a frame.
-/

namespace Wordlet

/-- What an evaluation takes place in: the functions that calls can reach and the limit on their
depth. -/
structure Context where
  table : Table
  maxDepth : Option Int
deriving Inhabited

namespace Context

/-- Calls may not nest `depth` deep. -/
def forbids (cx : Context) (depth : Nat) : Bool :=
  match cx.maxDepth with
  | none => false
  | some limit => limit < depth

end Context

/-- The value of a variable at `loc` in a frame. -/
def Frame.lookup (frame : Frame) (loc : Option Location) (name : String) : Except EvalError Int :=
  match frame.get? name with
  | some v => .ok v
  | none => .error ⟨.unbound name frame.function, loc⟩

/-- The frame of a call of `d`. -/
def Definition.frame (d : Definition) (arguments : List Int) : Frame :=
  .ofBindings d.name (d.parameterNames.zip arguments)

/-- The part that each kind of expression, in small letters, is first asked for when it is
evaluated. -/
def Stray.firstParts : List (String × String) :=
  [("literal", "value"), ("variable", "name"), ("branch", "condition"),
    ("functioncall", "parameters")]

/-- What comes of evaluating a stray node at `loc`. A node without meaning is taken for the
expression whose kind it spells, in letters of either case: the empty expression has no parts, and
every other one is found to lack them. -/
def Stray.outcome (loc : Option Location) : Stray → Outcome (Option Int)
  | other kind =>
    if kind.toLower = "empty" then .value none
    else
      match firstParts.lookup kind.toLower with
      | some part => .fault none (.missingPart part)
      | none => .fault loc (.notAnExpression kind)
  | node => .fault loc (.notAnExpression node.kind)

/-- What a native does, called at `loc`. -/
def Native.outcome (n : Native) (loc : Option Location) (arguments : List Int) :
    Outcome (Option Int) :=
  match n.value? arguments with
  | none => .fault loc (.arityMismatch n.name n.arity arguments.length)
  | some v =>
    if n.yields then .value (some v)
    else if Text.hasDecimal v then ⟨[.write v], .ok none⟩
    else .fault none .numberTooLong

namespace Expr

/-- The values of the arguments of a call of `f`, the first of which has the number `index`; `eval`
evaluates one. -/
def evalArguments (eval : Expr → Outcome (Option Int)) (f : String) :
    Nat → List Expr → Outcome (List Int)
  | _, [] => .value []
  | index, e :: es =>
    (eval e).andThen fun
      | none => .fault e.loc (.argumentWithoutValue index f)
      | some v => (evalArguments eval f (index + 1) es).andThen fun vs => .value (v :: vs)

/-- The outcome of an expression in a frame, with `stack` frames of the stack left and `depth` calls
open. -/
def eval (cx : Context) : (stack : Nat) → (depth : Nat) → Frame → Expr → Outcome (Option Int)
  | 0, _, _, _ => .fault none .stackExhausted
  | 1, _, _, _ => .fault none .stackExhausted
  | stack + 2, depth, frame, e =>
    match e with
    | empty _ => .value none
    | literal _ v => .value (some v)
    | var loc x =>
      match frame.lookup loc x with
      | .ok v => .value (some v)
      | .error e => ⟨[], .error e⟩
    | branch loc c t e =>
      (eval cx stack depth frame c).andThen fun
        | none => .fault loc .conditionWithoutValue
        | some v => if v = 1 then eval cx stack depth frame t else eval cx stack depth frame e
    | call loc f es =>
      (evalArguments (eval cx stack depth frame) f 1 es).andThen fun args =>
        if cx.forbids (depth + 1) then .fault loc .tooDeep
        else
          .ofCall loc f args <|
            match Native.find? f with
            | some n => n.outcome loc args
            | none =>
              match cx.table.find? f with
              | none => .fault loc (.unknownFunction f)
              | some d =>
                if d.arity ≠ args.length then
                  .fault loc (.arityMismatch f d.arity args.length)
                else
                  match stack with
                  | 0 => .fault none .stackExhausted
                  | stack + 1 => eval cx stack (depth + 1) (d.frame args) d.body
    | stray loc node _ => node.outcome loc

end Expr

end Wordlet
