/-!
# Places in a source text

A `Location` names a character by its path, its line and its column, both counted from one.
Tokens, tree nodes, reports and faults all carry one. A tree built by hand may carry none, or one
with any integers for line and column.
-/

namespace Wordlet

/-- A place in a source text. The path is written as messages show it. -/
structure Location where
  path : String
  line : Int
  column : Int
deriving DecidableEq, Repr, Inhabited

namespace Location

/-- The first character of the text at `path`. -/
def start (path : String) : Location := ⟨path, 1, 1⟩

/-- The written form behind the path. -/
def position (l : Location) : String := ":" ++ toString l.line ++ ":" ++ toString l.column

/-- The written form, `path:line:column`. -/
def text (l : Location) : String := l.path ++ l.position

/-- The written form of a location that may be missing. -/
def textOrNone : Option Location → String
  | some l => l.text
  | none => "None"

/-- A message headed by its place, or alone when it has none. -/
def head (l : Option Location) (message : String) : String :=
  match l with
  | some l => l.text ++ " " ++ message
  | none => message

end Location

end Wordlet
