import Wordlet.Text.Numeral
import Wordlet.Text.Quoted

/-!
# Frames

A frame holds the bindings of one function call and nothing of its caller. A name bound twice has
the value bound last.
-/

namespace Wordlet

/-- The bindings of a call of `function`, the latest first. -/
structure Frame where
  function : String
  latest : List (String × Int)
deriving DecidableEq, Repr, Inhabited

namespace Frame

/-- The frame of a function with `bindings`, in the order in which they are made. -/
def ofBindings (function : String) (bindings : List (String × Int)) : Frame :=
  ⟨function, bindings.reverse⟩

/-- The value of a name. -/
def get? (f : Frame) (name : String) : Option Int :=
  (f.latest.find? (·.1 == name)).map (·.2)

/-- The bound names, each once, in the order in which they were first bound. -/
def names (f : Frame) : List String := (f.latest.reverse.map (·.1)).eraseDups

/-- The written form: the function and, between braces, the bindings. -/
def text (f : Frame) : String :=
  let binding (name : String) : String :=
    Text.quoted name ++ ": " ++ Text.decimal ((f.get? name).getD 0)
  "Frame(" ++ Text.quoted f.function ++ ", \x7b" ++
    ", ".intercalate (f.names.map binding) ++ "\x7d)"

end Frame

end Wordlet
