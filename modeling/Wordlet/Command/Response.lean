import Wordlet.CallGraph
import Wordlet.Command.Invocation
import Wordlet.Eval.Log
import Wordlet.Report
import Wordlet.Settings
import Wordlet.SourceFile
import Wordlet.Syntax.Layout
import Wordlet.Syntax.Parse
import Wordlet.Token.Scan

/-!
# Responses

A `Response` is all that an invocation brings about: how it ends, what it writes to the two output
streams, and the files after it. `respond` is the whole program as a function of the files, the
environment and the arguments.

The output takes texts that can be written, and no others; the stream for errors shows stray bytes
by escapes. The recursion limit of the host in parsing, validating and formatting is left out.

Every failure ends an invocation with exit code 1, except those that are not foreseen, which
escape: a depth limit whose stack would be too large, or which has no value.
-/

namespace Wordlet.Command

/-- How an invocation ends. -/
inductive Status where
  | exit (code : Nat)
  /-- An error leaves the program unhandled. -/
  | escaped (error : EvalError)
deriving DecidableEq, Repr, Inhabited

/-- All that an invocation brings about. -/
structure Response where
  status : Status
  stdout : String
  stderr : String
  files : Files
deriving Repr, Inhabited

/-- A failure of an invocation that is reported by one line. -/
inductive Failure where
  | settings (error : SettingsError)
  | source (error : SourceError)
  | reading (error : SyntaxError)
  | format (error : FormatError)
  | evaluation (error : EvalError)
  | write (path : Raw) (error : WriteError)
  | output (error : Raw.EncodeError)

/-- The line that reports a failure. -/
def Failure.text : Failure → String
  | settings e => e.text
  | source e => e.text
  | reading e => e.text
  | format e => e.text
  | evaluation e => e.text
  | write path e => e.text path
  | output e => e.text

namespace Response

/-- Lines, each ended by a newline. -/
def lines (texts : List String) : String := String.join (texts.map (· ++ "\n"))

/-- An end with the given code and output, and with the files as they are. -/
def ending (fs : Files) (code : Nat) (stdout stderr : List String) : Response :=
  ⟨.exit code, lines stdout, lines stderr, fs⟩

/-- The end by a failure. -/
def ofFailure (fs : Files) (f : Failure) : Response := ending fs 1 [] [f.text]

/-- The end by a failure, or else what follows. -/
def orElse {α : Type} (fs : Files) (r : Except Failure α) (next : α → Response) : Response :=
  match r with
  | .error f => ofFailure fs f
  | .ok a => next a

/-- The texts that are written to the output one after the other, up to the first that cannot be. -/
def printed : List Raw → List String × Option Raw.EncodeError
  | [] => ([], none)
  | text :: texts =>
    match text.encode with
    | .ok s => (s :: (printed texts).1, (printed texts).2)
    | .error e => ([], some e)

/-- The end with the given code after texts are written to the output, or by the failure of that. -/
def printing (fs : Files) (code : Nat) (texts : List Raw) (stderr : List String) : Response :=
  match printed texts with
  | (stdout, none) => ending fs code stdout stderr
  | (stdout, some e) => ending fs 1 stdout (stderr ++ [(Failure.output e).text])

/-- The end after a text is written to a file, or by the failure of that. -/
def writing (fs : Files) (path text : Raw) : Response :=
  match fs.write path text with
  | (.ok (), after) => ending after 0 [] []
  | (.error e, after) => ofFailure after (.write path e)

end Response

/-- The text of a source file and the program that it spells. -/
def loadSource (fs : Files) (s : Settings) (path : Raw) : Except Failure (String × Program) :=
  match fs.readSource path s.extension with
  | .error e => .error (.source e)
  | .ok source =>
    match Program.parse (Token.scan source path.shown) with
    | .error e => .error (.reading e)
    | .ok p => .ok (source, p)

/-- The settings that `run` is left with. -/
def RunOptions.settings (o : RunOptions) (s : Settings) : Settings :=
  { s with
    trace := o.trace || s.trace
    validateBeforeRun := !o.noValidate && s.validateBeforeRun
    maxDepth := o.maxDepth.join.or s.maxDepth }

/-- The run that `run` is asked for. -/
def RunOptions.run (o : RunOptions) (s : Settings) (p : Program) : Run :=
  if o.maxDepth = some none then p.runWithoutValue else p.run s.maxDepth

/-- The response of a run of a program with `functions` functions, whose log has the given
threshold. -/
def respondToRun (fs : Files) (s : Settings) (threshold : Level) (functions : Nat)
    (run : Run) : Response :=
  let calls := if s.trace then some .info else none
  let sink := Sink.standard threshold
  let run := run.logged calls sink
  let log := (run.log functions calls sink).map (·.text)
  match run.outcome.result with
  | .ok _ => .ending fs 0 run.output log
  | .error e =>
    if e.fault.isUnforeseen then
      ⟨.escaped e, Response.lines run.output, Response.lines log, fs⟩
    else .ending fs 1 run.output (log ++ [(Failure.evaluation e).text])

/-- The response to `run`. -/
def run (fs : Files) (s : Settings) (threshold : Level) (o : RunOptions) : Response :=
  let s := o.settings s
  .orElse fs (loadSource fs s o.path) fun (_, p) =>
    let reports := if s.validateBeforeRun then p.reports else []
    if reports.isEmpty then respondToRun fs s threshold p.table.names.length (o.run s p)
    else
      .printing fs 1 (reports.map (Report.rawText o.path))
        ["Issues were found in " ++ o.path.shown ++ ":"]

/-- The response to `validate`: reports are advice. -/
def validate (fs : Files) (s : Settings) (path : Raw) : Response :=
  .orElse fs (loadSource fs s path) fun (_, p) =>
    .printing fs 0 (p.reports.map (Report.rawText path)) []

/-- The response to `format`: the canonical text with a newline replaces any other text, or is only
compared with it. -/
def format (fs : Files) (s : Settings) (o : FormatOptions) : Response :=
  .orElse fs (loadSource fs s o.path) fun (source, p) =>
    .orElse fs (p.format.mapError .format) fun text =>
      let formatted := text ++ "\n"
      if formatted = source then .ending fs 0 [] []
      else if o.check then .ending fs 1 [] [o.path.shown ++ " would be reformatted"]
      else .writing fs o.path formatted

/-- The call graph of a program as it is shown, with the path of its source file for a title. -/
def DisplayOptions.graph (o : DisplayOptions) (p : Program) : Raw :=
  (p.callGraph o.path.shown).rawText o.path

/-- The response to `display functions`: the call graph goes to a file, or to the output when no
file is named. -/
def displayFunctions (fs : Files) (s : Settings) (o : DisplayOptions) : Response :=
  .orElse fs (loadSource fs s o.path) fun (_, p) =>
    match o.output with
    | none => .printing fs 0 [o.graph p] []
    | some output =>
      if output.isEmpty then .printing fs 0 [o.graph p] [] else .writing fs output (o.graph p)

/-- The response to a task under its settings. -/
def Task.perform (fs : Files) (s : Settings) (threshold : Level) : Task → Response
  | .run o => Command.run fs s threshold o
  | .format o => Command.format fs s o
  | .validate path => Command.validate fs s path
  | .displayFunctions o => Command.displayFunctions fs s o
  | .natives => .ending fs 0 [Native.listing] []

/-- The least level of the records that are shown. -/
def Invocation.threshold (i : Invocation) : Level := if i.verbose then .debug else .info

/-- The response to an invocation. Without a task it is the help. -/
def Invocation.respond (fs : Files) (env : Environment) (i : Invocation) : Response :=
  match i.task with
  | none => ⟨.exit 1, Help.mainHelp, "", fs⟩
  | some task =>
    .orElse fs ((Settings.ofEnvironment env).mapError .settings) fun s =>
      task.perform fs s i.threshold

/-- The response to a command line that leads to no command. -/
def Halt.respond (fs : Files) : Halt → Response
  | .help text => ⟨.exit 0, text, "", fs⟩
  | .misuse usage program message =>
    .ending fs 2 [] [usage, program ++ ": error: " ++ message]

/-- The response to a command line. -/
def respond (fs : Files) (env : Environment) (args : List Raw) : Response :=
  match Invocation.ofArguments args with
  | .error h => h.respond fs
  | .ok i => i.respond fs env

end Wordlet.Command
