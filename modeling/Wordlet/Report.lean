import Wordlet.CallGraph
import Wordlet.Native
import Wordlet.Syntax.Table
import Wordlet.Text.Raw

/-!
# Reports on a program

Some faults of a program can be seen without running it: names defined twice or shadowing natives,
parameters listed twice, unknown variables and functions, wrong numbers of arguments, empty
conditions, parameters and functions that are never used. `Program.reports` lists them all and
changes nothing.

The order is fixed: first the reports on the names of the definitions; then, for each definition,
those on its parameters, its body and its unused parameters; last those on unused functions.
-/

namespace Wordlet

/-- A fault that shows without running the program. -/
inductive Issue where
  | alreadyDefined (function : String)
  | shadowsNative (function : String)
  | duplicateParameter (parameter function : String)
  | unknownVariable (name : String)
  | unknownFunction (name : String)
  | arityMismatch (function : String) (accepted received : Nat)
  | emptyCondition
  | unusedParameter (name : String)
  | unusedFunction (name : String)
deriving DecidableEq, Repr, Inhabited

/-- A name between double quotes. -/
def inQuotes (name : String) : String := "\"" ++ name ++ "\""

/-- The wording of a wrong number of arguments. -/
def arityMessage (function : String) (accepted received : Nat) : String :=
  "function " ++ inQuotes function ++ " accepts " ++ toString accepted ++
    " arguments but received " ++ toString received ++ " parameters"

namespace Issue

/-- The wording of an issue. -/
def message : Issue → String
  | alreadyDefined f => "function " ++ inQuotes f ++ " is already defined"
  | shadowsNative f => "function " ++ inQuotes f ++ " shadows a native function"
  | duplicateParameter x f => "duplicate argument " ++ inQuotes x ++ " in function " ++ inQuotes f
  | unknownVariable x => "unknown variable " ++ inQuotes x
  | unknownFunction f => "unknown function " ++ inQuotes f
  | arityMismatch f accepted received => arityMessage f accepted received
  | emptyCondition => "empty branch condition"
  | unusedParameter x => "variable " ++ inQuotes x ++ " is never used"
  | unusedFunction f => "function " ++ inQuotes f ++ " is never used"

end Issue

/-- An issue and its place. -/
structure Report where
  loc : Option Location
  issue : Issue
deriving DecidableEq, Repr, Inhabited

/-- The text of a report. -/
def Report.text (r : Report) : String := Location.textOrNone r.loc ++ " " ++ r.issue.message

/-- The text of a report on a source file at a path, as it is written to the output: the path is
written as it is, and not as messages show it. -/
def Report.rawText (path : Raw) (r : Report) : Raw :=
  match r.loc with
  | some l => path ++ Raw.ofString (l.position ++ " " ++ r.issue.message)
  | none => r.text

/-- At a path that is a text this is the text of the report. -/
theorem Report.rawText_ofString {path : String} (r : Report)
    (h : ∀ l, r.loc = some l → l.path = path) : r.rawText path = Raw.ofString r.text := by
  unfold rawText
  split
  · next l hl =>
    rw [← h l hl, ← Raw.ofString_append, text, hl, Location.textOrNone, Location.text]
    simp only [String.append_assoc]
  · rfl

namespace Expr

mutual

/-- The names of the variables that occur in an expression, in the order of the text. -/
def variableNames : Expr → List String
  | var _ x => [x]
  | call _ _ es => variableNamesIn es
  | branch _ c t e => c.variableNames ++ (t.variableNames ++ e.variableNames)
  | _ => []

/-- The names of the variables that occur in a list of expressions. -/
def variableNamesIn : List Expr → List String
  | [] => []
  | e :: es => e.variableNames ++ variableNamesIn es

end

theorem variableNamesIn_eq_flatMap (es : List Expr) :
    variableNamesIn es = es.flatMap variableNames := by
  induction es with
  | nil => rfl
  | cons e es ih => simp [variableNamesIn, ih]

/-- The report on the call itself, where `arity?` knows the functions. -/
def callReports (arity? : String → Option Nat) (loc : Option Location) (f : String)
    (received : Nat) : List Report :=
  match arity? f with
  | none => [⟨loc, .unknownFunction f⟩]
  | some accepted =>
    if accepted = received then [] else [⟨loc, .arityMismatch f accepted received⟩]

mutual

/-- The reports on an expression in a function with the parameters `bound`, where `arity?` knows
the functions. -/
def reports (arity? : String → Option Nat) (bound : List String) : Expr → List Report
  | var loc x => if x ∈ bound then [] else [⟨loc, .unknownVariable x⟩]
  | call loc f es => callReports arity? loc f es.length ++ reportsIn arity? bound es
  | branch loc c t e =>
    (if c.isEmpty then [⟨loc, .emptyCondition⟩] else c.reports arity? bound) ++
      (t.reports arity? bound ++ e.reports arity? bound)
  | _ => []

/-- The reports on a list of expressions. -/
def reportsIn (arity? : String → Option Nat) (bound : List String) : List Expr → List Report
  | [] => []
  | e :: es => e.reports arity? bound ++ reportsIn arity? bound es

end

theorem reportsIn_eq_flatMap (arity? : String → Option Nat) (bound : List String)
    (es : List Expr) : reportsIn arity? bound es = es.flatMap (reports arity? bound) := by
  induction es with
  | nil => rfl
  | cons e es ih => simp [reportsIn, ih]

end Expr

/-- The number of arguments that calls of a name take, where the definitions come before the
natives. -/
def Table.arity? (t : Table) (name : String) : Option Nat :=
  match t.find? name with
  | some d => some d.arity
  | none => (Native.find? name).map Native.arity

namespace Definition

/-- The reports on the name of a definition, after definitions of the names `earlier`. -/
def nameReports (d : Definition) (earlier : List String) : List Report :=
  (if d.name ∈ earlier then [⟨d.loc, .alreadyDefined d.name⟩] else []) ++
    (if (Native.find? d.name).isSome then [⟨d.loc, .shadowsNative d.name⟩] else [])

/-- The reports on the parameters `ps` of a definition, after parameters named `earlier`. -/
def duplicateReports (d : Definition) (earlier : List String) : List Parameter → List Report
  | [] => []
  | p :: ps =>
    (if p.name ∈ earlier then [⟨p.loc, .duplicateParameter p.name d.name⟩] else []) ++
      d.duplicateReports (p.name :: earlier) ps

/-- The reports on parameters among `ps` that the body does not use, after parameters named
`earlier`; a name is reported at its first parameter. -/
def unusedReports (d : Definition) (earlier : List String) : List Parameter → List Report
  | [] => []
  | p :: ps =>
    (if p.name ∈ earlier ∨ p.name ∈ d.body.variableNames then []
      else [⟨p.loc, .unusedParameter p.name⟩]) ++
      d.unusedReports (p.name :: earlier) ps

/-- The reports on a definition, its name apart. -/
def reports (d : Definition) (arity? : String → Option Nat) : List Report :=
  d.duplicateReports [] d.parameters ++
    (d.body.reports arity? d.parameterNames ++ d.unusedReports [] d.parameters)

end Definition

namespace Program

/-- The reports on the names of the definitions `ds`, after definitions of the names `earlier`. -/
def nameReports (earlier : List String) : List Definition → List Report
  | [] => []
  | d :: ds => d.nameReports earlier ++ nameReports (d.name :: earlier) ds

/-- The names called anywhere in a program. -/
def callees (p : Program) : List String := p.definitions.flatMap Definition.callees

/-- The report on a defined name that is neither the entry point nor among the names `called`,
placed at its last definition. -/
def unusedReport (table : Table) (called : List String) (name : String) : Option Report :=
  if name = entryPoint ∨ name ∈ called then none
  else (table.find? name).map fun d => ⟨d.loc, .unusedFunction name⟩

/-- The reports on functions that are never called. -/
def unusedReports (p : Program) : List Report :=
  let called := p.callees
  p.table.names.filterMap (unusedReport p.table called)

/-- All reports on a program. -/
def reports (p : Program) : List Report :=
  nameReports [] p.definitions ++
    (p.definitions.flatMap (·.reports p.table.arity?) ++ p.unusedReports)

end Program

end Wordlet
