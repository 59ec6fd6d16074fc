import Wordlet.Text.Digit
import Wordlet.Text.Raw

/-!
# Command lines

A command line is read by a `Grammar`: options, which begin with a dash, and at most one positional
part, which is an operand or a command with a command line of its own.

* A long option may be shortened as long as one option fits, and may carry its value after `=`.
* A short option may carry its value, or further short options, in the same argument, and these may
  stand after `=`.
* A value `--` in the same argument as its option is no value.
* `--` ends the options. A negative number, a single dash and an argument with a space are never
  options.
* Arguments that fit nowhere are left over and given back.

Arguments are raw texts. A stray byte is neither a dash nor a digit and is in no name of an option.

`Grammar.read` works in two passes. The first, `classify`, tells options from operands by their form
alone; the second, `consume`, takes them in turn.
-/

namespace Wordlet.Command

/-- Why a command line leads to no command: help was asked for, or the line is wrong. -/
inductive Halt where
  | help (text : String)
  | misuse (usage program message : String)
deriving DecidableEq, Repr, Inhabited

/-- What an option does to the values `σ` read so far. -/
inductive Effect (σ : Type) where
  /-- Shows the help and ends. -/
  | help
  /-- Takes no value. -/
  | flag (set : σ → σ)
  /-- Takes a value; `read` gives the effect of its text, which may be missing, or what is wrong
  with it. -/
  | value (read : Option Raw → Except String (σ → σ))

/-- An option under all its names. -/
structure Opt (σ : Type) where
  names : List String
  effect : Effect σ

/-- The positional part of a command line. -/
inductive Positional (σ : Type) where
  | none
  /-- An operand that must be given. -/
  | operand (name : String) (set : Raw → σ → σ)
  /-- One of some commands, each reading all that follows it into a change of the values and the
  arguments left over; it may be missing. -/
  | command (name : String)
      (choices : List (String × (List Raw → Except Halt ((σ → σ) × List Raw))))

/-- How a command line is read. -/
structure Grammar (σ : Type) where
  program : String
  usage : String
  help : String
  options : List (Opt σ)
  positional : Positional σ

/-- What an argument is by its form. -/
inductive Form (σ : Type) where
  | operand
  /-- The argument `--` that ends the options. -/
  | separator
  /-- An option that the grammar does not have. -/
  | unknown
  /-- An option under the given name, and the text attached to it. -/
  | option (opt : Opt σ) (name : String) (attached : Option (List Piece))

/-- What an argument with options amounts to. -/
structure Cluster (σ : Type) where
  /-- The options in order; those that take a value come with it. -/
  settled : List (Opt σ × Option Raw)
  /-- The last option, if it takes the next argument as its value. -/
  awaiting : Option (Opt σ)

namespace Opt

/-- The name of an option in messages. -/
def title {σ : Type} (o : Opt σ) : String := "/".intercalate o.names

/-- The option takes a value. -/
def takesValue {σ : Type} (o : Opt σ) : Bool :=
  match o.effect with
  | .value _ => true
  | _ => false

end Opt

/-- The text has the form of a negative number: a dash and digits, or a dash and digits with a point
before the last of them; a newline may follow. -/
def isNegativeNumber (ps : List Piece) : Bool :=
  let isDigit : Piece → Bool
    | .char c => (Text.digitValue? c).isSome
    | .stray _ => false
  match ps with
  | .char '-' :: ps =>
    let body := if ps.getLast? = some (.char '\n') then ps.dropLast else ps
    let rest := body.dropWhile isDigit
    match rest with
    | [] => !body.isEmpty
    | .char '.' :: fraction => !fraction.isEmpty && fraction.all isDigit
    | _ => false
  | _ => false

/-- Splits a text at its first `=`. -/
def splitEquals (ps : List Piece) : List Piece × Option (List Piece) :=
  match ps.dropWhile (· ≠ .char '=') with
  | [] => (ps, none)
  | _ :: text => (ps.takeWhile (· ≠ .char '='), some text)

/-- The value that the text attached to an option gives. -/
def attachedValue (ps : List Piece) : Option Raw :=
  if ps = [.char '-', .char '-'] then none else some ⟨ps⟩

namespace Grammar

variable {σ : Type} (g : Grammar σ)

/-- The misuse with this message. -/
def misuse {α : Type} (message : String) : Except Halt α :=
  .error (.misuse g.usage g.program message)

/-- The misuse of an option or positional part. -/
def misuseOf {α : Type} (title message : String) : Except Halt α :=
  g.misuse ("argument " ++ title ++ ": " ++ message)

/-- All names of options, each with its option, in the order in which they are declared. -/
def named : List (String × Opt σ) := g.options.flatMap fun o => o.names.map (·, o)

/-- The option of a name. -/
def find? (name : Raw) : Option (Opt σ) := name.text?.bind fun text => g.named.lookup text

/-- The options that an argument may mean though it is no name: options whose long names it begins,
or the short option with which it begins. -/
def candidates (arg : List Piece) : List (Opt σ × String × Option (List Piece)) :=
  match arg with
  | .char '-' :: .char '-' :: _ =>
    let (start, attached) := splitEquals arg
    g.named.filterMap fun (name, o) =>
      if start.isPrefixOf (Raw.ofString name).pieces then some (o, name, attached) else none
  | _ =>
    g.named.filterMap fun (name, o) =>
      let pieces := (Raw.ofString name).pieces
      if pieces = arg.take 2 then some (o, name, some (arg.drop 2))
      else if arg.isPrefixOf pieces then some (o, name, none)
      else none

/-- What an argument is, where options are not ended. -/
def formOf (arg : Raw) : Except Halt (Form σ) :=
  let ps := arg.pieces
  if ps.head? ≠ some (.char '-') then .ok .operand
  else
    match g.find? arg with
    | some o => .ok (.option o arg.shown none)
    | none =>
      if ps.length = 1 then .ok .operand
      else
        let (start, attached) := splitEquals ps
        match attached, g.find? ⟨start⟩ with
        | some a, some o => .ok (.option o (Raw.mk start).shown (some a))
        | _, _ =>
          match g.candidates ps with
          | [(o, name, attached)] => .ok (.option o name attached)
          | [] =>
            if isNegativeNumber ps || ps.contains (.char ' ') then .ok .operand else .ok .unknown
          | several =>
            g.misuse ("ambiguous option: " ++ arg.shown ++ " could match " ++
              ", ".intercalate (several.map (·.2.1)))

/-- The arguments with their forms. -/
def classify : List Raw → Except Halt (List (Raw × Form σ))
  | [] => .ok []
  | arg :: args =>
    if arg = "--" then .ok ((arg, .separator) :: args.map (·, .operand))
    else
      match g.formOf arg with
      | .error h => .error h
      | .ok form =>
        match classify args with
        | .error h => .error h
        | .ok forms => .ok ((arg, form) :: forms)

/-- The cluster of an option with nothing attached. -/
def bare (o : Opt σ) : Cluster σ := if o.takesValue then ⟨[], some o⟩ else ⟨[(o, none)], none⟩

/-- The cluster of an option with text attached; `single` says that its name has a single dash, so
that further options may follow it. -/
def clusterOf (o : Opt σ) (single : Bool) (text : List Piece) : Except Halt (Cluster σ) :=
  if o.takesValue then .ok ⟨[(o, attachedValue text)], none⟩
  else
    let ignored : Except Halt (Cluster σ) :=
      g.misuseOf o.title ("ignored explicit argument " ++ (Raw.mk text).quoted)
    match text with
    | [] => ignored
    | p :: rest =>
      match if single then g.find? ⟨[.char '-', p]⟩ else none with
      | none => ignored
      | some next =>
        match if rest.isEmpty then .ok (bare next) else clusterOf next true rest with
        | .error h => .error h
        | .ok cluster => .ok { cluster with settled := (o, none) :: cluster.settled }

/-- The cluster of an option. -/
def cluster (o : Opt σ) (name : String) : Option (List Piece) → Except Halt (Cluster σ)
  | none => .ok (bare o)
  | some text => g.clusterOf o (name.toList.take 2 ≠ ['-', '-']) text

/-- The values after the options of a cluster, in order. -/
def settle (values : σ) : List (Opt σ × Option Raw) → Except Halt σ
  | [] => .ok values
  | (o, text) :: rest =>
    match o.effect with
    | .help => .error (.help g.help)
    | .flag set => settle (set values) rest
    | .value read =>
      match read text with
      | .error message => g.misuseOf o.title message
      | .ok set => settle (set values) rest

/-- The values after a command is chosen and has read the arguments that follow. -/
def choose (values : σ) (name : String)
    (choices : List (String × (List Raw → Except Halt ((σ → σ) × List Raw))))
    (chosen : Raw) (args : List Raw) : Except Halt (σ × List Raw) :=
  match chosen.text?.bind fun text => choices.lookup text with
  | none =>
    g.misuseOf name ("invalid choice: " ++ chosen.quoted ++ " (choose from " ++
      ", ".intercalate (choices.map (Text.quoted ·.1)) ++ ")")
  | some read =>
    match read args with
    | .error h => .error h
    | .ok (set, extras) => .ok (set values, extras)

/-- Puts arguments in front of those left over. -/
def leaving (extra : List Raw) : Except Halt (σ × List Raw) → Except Halt (σ × List Raw)
  | .ok (values, extras) => .ok (values, extra ++ extras)
  | .error h => .error h

/-- The values at the end of the line; an operand must not be missing. -/
def finish (values : σ) : Positional σ → Except Halt (σ × List Raw)
  | .operand name _ => g.misuse ("the following arguments are required: " ++ name)
  | _ => .ok (values, [])

/-- Takes the classified arguments in turn; `pending` is the positional part if it is not yet taken.
Gives the values and the arguments left over. A separator goes with the operand next to it. -/
def consume (values : σ) (pending : Positional σ) :
    List (Raw × Form σ) → Except Halt (σ × List Raw)
  | [] => g.finish values pending
  | (arg, form) :: rest =>
    match form with
    | .unknown => leaving [arg] (consume values pending rest)
    | .option o name attached =>
      match g.cluster o name attached with
      | .error h => .error h
      | .ok ⟨settled, none⟩ =>
        match g.settle values settled with
        | .error h => .error h
        | .ok values => consume values pending rest
      | .ok ⟨settled, some last⟩ =>
        match rest with
        | (value, .operand) :: rest =>
          match g.settle values (settled ++ [(last, some value)]) with
          | .error h => .error h
          | .ok values => consume values pending rest
        | _ => g.misuseOf last.title "expected one argument"
    | .separator =>
      match rest with
      | [] => leaving [arg] (g.finish values pending)
      | (operand, form) :: rest =>
        match pending with
        | .command name choices => g.choose values name choices arg (operand :: rest.map (·.1))
        | .operand _ set => consume (set operand values) .none rest
        | .none => leaving [arg] (consume values .none ((operand, form) :: rest))
    | .operand =>
      match pending with
      | .command name choices => g.choose values name choices arg (rest.map (·.1))
      | .operand _ set =>
        match rest with
        | [] => g.finish (set arg values) .none
        | (_, .separator) :: rest => consume (set arg values) .none rest
        | next :: rest => consume (set arg values) .none (next :: rest)
      | .none => leaving [arg] (consume values .none rest)

/-- Reads a command line into the values and the arguments left over. -/
def read (values : σ) (args : List Raw) : Except Halt (σ × List Raw) :=
  match g.classify args with
  | .error h => .error h
  | .ok forms => g.consume values g.positional forms

/-- Reads a command line that must leave nothing over. -/
def readAll (values : σ) (args : List Raw) : Except Halt σ :=
  match g.read values args with
  | .error h => .error h
  | .ok (values, []) => .ok values
  | .ok (_, extras) =>
    g.misuse ("unrecognized arguments: " ++ " ".intercalate (extras.map Raw.shown))

end Grammar

end Wordlet.Command
