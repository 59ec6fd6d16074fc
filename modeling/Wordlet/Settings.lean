import Wordlet.Text.Numeral
import Wordlet.Text.Quoted

/-!
# Settings

Settings have defaults, which environment variables change, which explicit overrides change in turn.
Two variables count: one switches tracing, the other limits the depth of calls.

* `Settings.ofEnvironment` — the settings of an environment.
* `SettingValues.override` — the values of settings with overrides applied.

Overrides are not checked, so the value of a setting may be of any type once it is overridden.
`SettingValues` holds the settings as values of one type, of which nothing else is known.
-/

namespace Wordlet

/-- How programs are read, checked and run. -/
structure Settings where
  /-- The end of the name of every source file. -/
  extension : String := ".id"
  /-- A program with reports is not run. -/
  validateBeforeRun : Bool := true
  /-- Calls are logged. -/
  trace : Bool := false
  /-- The limit on the depth of calls. -/
  maxDepth : Option Int := none
deriving DecidableEq, Repr, Inhabited

/-- Why there are no settings. -/
inductive SettingsError where
  /-- The text of the depth limit is no integer. -/
  | depthNotInteger (text : String)
  /-- The depth limit is not positive. -/
  | depthNotPositive (value : Int)
  /-- There is no setting of this name. -/
  | unknownSetting (name : String)
  /-- An override has the name that stands for the settings themselves. -/
  | overridesItself
deriving DecidableEq, Repr

/-- The settings as values of one type. -/
structure SettingValues (α : Type) where
  extension : α
  validateBeforeRun : α
  trace : α
  maxDepth : α
deriving DecidableEq, Repr, Inhabited

/-- The variables of an environment and their texts. -/
abbrev Environment := List (String × String)

namespace SettingsError

/-- The text of a settings error. -/
def text : SettingsError → String
  | depthNotInteger t => "IDEM_MAX_DEPTH must be an integer, got " ++ Text.quoted t
  | depthNotPositive n => "IDEM_MAX_DEPTH must be positive, got " ++ Text.decimal n
  | unknownSetting name =>
    "IdemConfig.__init__() got an unexpected keyword argument '" ++ name ++ "'"
  | overridesItself => "IdemConfig.with_overrides() got multiple values for argument 'self'"

end SettingsError

namespace Settings

/-- The texts that turn a switch on, in lower case. -/
def switchedOn : List String := ["1", "true", "yes", "on"]

/-- The text turns a switch on; blanks around it and the case of its letters do not matter. -/
def isSwitchedOn (text : String) : Bool :=
  (String.ofList (Text.trim Text.isBlank text.toList)).toLower ∈ switchedOn

/-- The depth limit that a text sets; an empty text sets none. -/
def readDepth (text : String) : Except SettingsError (Option Int) :=
  if text.isEmpty then .ok none
  else
    match Text.integer? text with
    | none => .error (.depthNotInteger text)
    | some n => if n < 1 then .error (.depthNotPositive n) else .ok (some n)

/-- The settings of an environment. -/
def ofEnvironment (env : Environment) : Except SettingsError Settings :=
  let trace := ((env.lookup "IDEM_TRACE").map isSwitchedOn).getD false
  match readDepth ((env.lookup "IDEM_MAX_DEPTH").getD "") with
  | .error e => .error e
  | .ok maxDepth => .ok { trace, maxDepth }

/-- The settings as values of one type, which texts, switches and limits can be made into. -/
def values {α : Type} (s : Settings) (text : String → α) (switch : Bool → α)
    (limit : Option Int → α) : SettingValues α :=
  ⟨text s.extension, switch s.validateBeforeRun, switch s.trace, limit s.maxDepth⟩

end Settings

namespace SettingValues

variable {α : Type}

/-- The values with the setting of a name changed, if there is one. -/
def set? (s : SettingValues α) (name : String) (value : α) : Option (SettingValues α) :=
  match name with
  | "extension" => some { s with extension := value }
  | "validate_before_run" => some { s with validateBeforeRun := value }
  | "trace" => some { s with trace := value }
  | "max_depth" => some { s with maxDepth := value }
  | _ => none

/-- The values with those changed that are given new ones, in turn. -/
def change (s : SettingValues α) : List (String × Option α) → Except SettingsError (SettingValues α)
  | [] => .ok s
  | (_, none) :: changes => s.change changes
  | (name, some value) :: changes =>
    match s.set? name value with
    | some s => s.change changes
    | none => .error (.unknownSetting name)

/-- The values with overrides applied. A name without a value overrides nothing, and values are
taken as they are, whatever their type. -/
def override (s : SettingValues α) (overrides : List (String × Option α)) :
    Except SettingsError (SettingValues α) :=
  if overrides.any fun o => o.1 == "self" then .error .overridesItself else s.change overrides

end SettingValues

end Wordlet
