import Wordlet.Command.Help
import Wordlet.Command.Line
import Wordlet.Text.Numeral

/-!
# Invocations

An `Invocation` is what a command line asks for. `Invocation.ofArguments` reads it by the grammars
of the program and its commands.
-/

namespace Wordlet.Command

/-- What `run` is asked to do. -/
structure RunOptions where
  path : Raw := ""
  trace : Bool := false
  noValidate : Bool := false
  /-- The depth limit, if one is asked for; its value may be missing. -/
  maxDepth : Option (Option Int) := none
deriving DecidableEq, Repr, Inhabited

/-- What `format` is asked to do. -/
structure FormatOptions where
  path : Raw := ""
  check : Bool := false
deriving DecidableEq, Repr, Inhabited

/-- What `display functions` is asked to do. -/
structure DisplayOptions where
  path : Raw := ""
  output : Option Raw := none
deriving DecidableEq, Repr, Inhabited

/-- A command with its options. -/
inductive Task where
  | run (options : RunOptions)
  | format (options : FormatOptions)
  | validate (path : Raw)
  | displayFunctions (options : DisplayOptions)
  | natives
deriving DecidableEq, Repr, Inhabited

/-- What a command line asks for: a task, if it names one, with more or less logging. -/
structure Invocation where
  verbose : Bool := false
  task : Option Task := none
deriving DecidableEq, Repr, Inhabited

/-- The option that shows the help. -/
def helpOption {σ : Type} : Opt σ := ⟨["-h", "--help"], .help⟩

/-- The grammar of the line after `run`. -/
def runGrammar : Grammar RunOptions where
  program := "idem run"
  usage := Help.runUsage
  help := Help.runHelp
  options :=
    [helpOption,
      ⟨["--trace"], .flag fun o => { o with trace := true }⟩,
      ⟨["--no-validate"], .flag fun o => { o with noValidate := true }⟩,
      ⟨["--max-depth"], .value fun
        | none => .ok fun o => { o with maxDepth := some none }
        | some text =>
          match text.text?.bind Text.integer? with
          | some n => .ok fun o => { o with maxDepth := some (some n) }
          | none => .error ("invalid int value: " ++ text.quoted)⟩]
  positional := .operand "path" fun path o => { o with path }

/-- The grammar of the line after `format`. -/
def formatGrammar : Grammar FormatOptions where
  program := "idem format"
  usage := Help.formatUsage
  help := Help.formatHelp
  options := [helpOption, ⟨["--check"], .flag fun o => { o with check := true }⟩]
  positional := .operand "path" fun path o => { o with path }

/-- The grammar of the line after `validate`. -/
def validateGrammar : Grammar Raw where
  program := "idem validate"
  usage := Help.validateUsage
  help := Help.validateHelp
  options := [helpOption]
  positional := .operand "path" fun path _ => path

/-- The grammar of the line after `display functions`. -/
def displayFunctionsGrammar : Grammar DisplayOptions where
  program := "idem display functions"
  usage := Help.displayFunctionsUsage
  help := Help.displayFunctionsHelp
  options :=
    [helpOption,
      ⟨["--output", "-o"], .value fun text => .ok fun o => { o with output := text }⟩]
  positional := .operand "path" fun path o => { o with path }

/-- The grammar of the line after `natives`. -/
def nativesGrammar : Grammar Unit where
  program := "idem natives"
  usage := Help.nativesUsage
  help := Help.nativesHelp
  options := [helpOption]
  positional := .none

/-- The reader of a command whose values make a task. -/
def taskReader {σ : Type} (g : Grammar σ) (start : σ) (task : σ → Task) (args : List Raw) :
    Except Halt ((Option Task → Option Task) × List Raw) :=
  match g.read start args with
  | .ok (values, extras) => .ok (fun _ => some (task values), extras)
  | .error h => .error h

/-- The grammar of the line after `display`. -/
def displayGrammar : Grammar (Option Task) where
  program := "idem display"
  usage := Help.displayUsage
  help := Help.displayHelp
  options := [helpOption]
  positional :=
    .command "display_command"
      [("functions", taskReader displayFunctionsGrammar {} .displayFunctions)]

/-- The reader of a command that changes the task of an invocation. -/
def invocationReader (read : List Raw → Except Halt ((Option Task → Option Task) × List Raw))
    (args : List Raw) : Except Halt ((Invocation → Invocation) × List Raw) :=
  match read args with
  | .ok (set, extras) => .ok (fun i => { i with task := set i.task }, extras)
  | .error h => .error h

/-- The reader of the line after `display`. -/
def displayReader (args : List Raw) : Except Halt ((Option Task → Option Task) × List Raw) :=
  match displayGrammar.read none args with
  | .ok (task, extras) => .ok (fun _ => task, extras)
  | .error h => .error h

/-- The grammar of the whole line. -/
def mainGrammar : Grammar Invocation where
  program := "idem"
  usage := Help.mainUsage
  help := Help.mainHelp
  options :=
    [helpOption, ⟨["--verbose", "-v"], .flag fun i => { i with verbose := true }⟩]
  positional :=
    .command "command"
      [("run", invocationReader (taskReader runGrammar {} .run)),
        ("format", invocationReader (taskReader formatGrammar {} .format)),
        ("validate", invocationReader (taskReader validateGrammar "" .validate)),
        ("display", invocationReader displayReader),
        ("natives", invocationReader (taskReader nativesGrammar () fun _ => .natives))]

/-- What a command line asks for. -/
def Invocation.ofArguments (args : List Raw) : Except Halt Invocation :=
  mainGrammar.readAll {} args

end Wordlet.Command
