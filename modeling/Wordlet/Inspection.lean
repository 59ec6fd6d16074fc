import Wordlet.Report

/-!
# Inspections

An inspection finds the reports on a program in one walk. It keeps two registers: of the functions
that are defined, with the number of calls seen so far, and of the parameters of the definition at
hand, with the number of their uses. What was never counted is reported when the part of the text
is over in which it could have been.

* `Inspection.expression`: the walk over one expression.
* `Program.inspect`: the reports that an inspection finds.
-/

namespace Wordlet

/-- What is kept under names, in the order in which the names were first entered. -/
structure Register (α : Type) where
  entries : List (String × α)
deriving Repr, Inhabited

namespace Register

variable {α : Type}

/-- The register without names. -/
def empty : Register α := ⟨[]⟩

/-- What is kept under a name. -/
def find? (r : Register α) (name : String) : Option α := r.entries.lookup name

/-- The entries with `a` under a name: in the place of what was there, or else at the end. -/
def enterIn (name : String) (a : α) : List (String × α) → List (String × α)
  | [] => [(name, a)]
  | e :: es => if e.1 = name then (name, a) :: es else e :: enterIn name a es

/-- The register with `a` under a name. -/
def enter (r : Register α) (name : String) (a : α) : Register α := ⟨enterIn name a r.entries⟩

/-- The register with what is kept under a name changed; without the name nothing is. -/
def change (r : Register α) (name : String) (f : α → α) : Register α :=
  ⟨r.entries.map fun e => if e.1 = name then (e.1, f e.2) else e⟩

end Register

/-- A function that is defined, and the calls of it. -/
structure Prototype where
  loc : Option Location
  parameters : List Parameter
  calls : Nat := 0
deriving Repr, Inhabited

/-- One more call. -/
def Prototype.called (q : Prototype) : Prototype := { q with calls := q.calls + 1 }

/-- A parameter of the definition at hand, and the uses of it. -/
structure Usage where
  loc : Option Location
  uses : Nat := 0
deriving Repr, Inhabited

/-- One more use. -/
def Usage.used (u : Usage) : Usage := { u with uses := u.uses + 1 }

/-- An inspection in progress. -/
structure Inspection where
  reports : Array Report
  /-- The functions that are defined. -/
  functions : Register Prototype
  /-- The parameters of the definition at hand. -/
  scope : Register Usage
deriving Inhabited

namespace Inspection

/-- An inspection that has seen nothing. -/
def start : Inspection := ⟨#[], .empty, .empty⟩

/-- Adds a report. -/
def add (s : Inspection) (loc : Option Location) (issue : Issue) : Inspection :=
  { s with reports := s.reports.push ⟨loc, issue⟩ }

/-! ## Definitions -/

/-- Enters a definition among the functions, in the place of an earlier one of its name. -/
def declare (s : Inspection) (d : Definition) : Inspection :=
  let s := if (s.functions.find? d.name).isSome then s.add d.loc (.alreadyDefined d.name) else s
  let s := if (Native.find? d.name).isSome then s.add d.loc (.shadowsNative d.name) else s
  { s with functions := s.functions.enter d.name { loc := d.loc, parameters := d.parameters } }

/-- Enters a parameter of a function among the variables, unless its name is there. -/
def parameter (function : String) (s : Inspection) (q : Parameter) : Inspection :=
  if (s.scope.find? q.name).isSome then s.add q.loc (.duplicateParameter q.name function)
  else { s with scope := s.scope.enter q.name { loc := q.loc } }

/-! ## Expressions -/

/-- Compares the number of arguments of a call with the number accepted. -/
def arity (s : Inspection) (loc : Option Location) (f : String) (accepted received : Nat) :
    Inspection :=
  if accepted ≠ received then s.add loc (.arityMismatch f accepted received) else s

/-- Counts a call. The functions that are defined come before the natives. -/
def call (s : Inspection) (loc : Option Location) (f : String) (received : Nat) : Inspection :=
  match s.functions.find? f with
  | some q =>
    { s with functions := s.functions.change f .called }.arity loc f q.parameters.length received
  | none =>
    match Native.find? f with
    | some n => s.arity loc f n.arity received
    | none => s.add loc (.unknownFunction f)

/-- Counts a use of a variable. -/
def use (s : Inspection) (loc : Option Location) (x : String) : Inspection :=
  match s.scope.find? x with
  | some _ => { s with scope := s.scope.change x .used }
  | none => s.add loc (.unknownVariable x)

mutual

/-- Walks over an expression. A call is looked at before its arguments, and an empty condition is
not entered. -/
def expression (s : Inspection) : Expr → Inspection
  | .call loc f es => (s.call loc f es.length).expressions es
  | .branch loc c t e =>
    ((if c.isEmpty then s.add loc .emptyCondition else s.expression c).expression t).expression e
  | .var loc x => s.use loc x
  | _ => s

/-- Walks over expressions in turn. -/
def expressions (s : Inspection) : List Expr → Inspection
  | [] => s
  | e :: es => (s.expression e).expressions es

end

/-! ## What was never counted -/

/-- Reports a variable that was not used. -/
def closeVariable (s : Inspection) (v : String × Usage) : Inspection :=
  if v.2.uses = 0 then s.add v.2.loc (.unusedParameter v.1) else s

/-- Walks over a definition, with its parameters as the variables. -/
def definition (s : Inspection) (d : Definition) : Inspection :=
  let s := d.parameters.foldl (parameter d.name) { s with scope := .empty }
  let s := s.expression d.body
  s.scope.entries.foldl closeVariable s

/-- Reports a function that was not called, if a run does not begin with it. -/
def closeFunction (s : Inspection) (f : String × Prototype) : Inspection :=
  if f.1 ≠ entryPoint ∧ f.2.calls = 0 then s.add f.2.loc (.unusedFunction f.1) else s

end Inspection

/-- The reports that an inspection of a program finds. All definitions are entered before the first
of them is walked over. -/
def Program.inspect (p : Program) : List Report :=
  let s := p.definitions.foldl Inspection.declare .start
  let s := p.definitions.foldl Inspection.definition s
  (s.functions.entries.foldl Inspection.closeFunction s).reports.toList

end Wordlet
