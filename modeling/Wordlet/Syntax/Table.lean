import Wordlet.Syntax.Expr

/-!
# Function tables

A program may define a name more than once. The last definition counts; the names keep the order of
their first definitions.
-/

namespace Wordlet

/-- The functions that calls can reach: the definitions in force, the latest first. -/
structure Table where
  latest : List Definition
deriving Repr, Inhabited

namespace Table

/-- The table without functions. -/
def empty : Table := ⟨[]⟩

/-- The last definition of a name. -/
def find? (t : Table) (name : String) : Option Definition :=
  t.latest.find? (·.name == name)

/-- The defined names, each once, in the order of their first definitions. -/
def names (t : Table) : List String :=
  (t.latest.reverse.map (·.name)).eraseDups

end Table

/-- The table of a program's definitions. -/
def Program.table (p : Program) : Table := ⟨p.definitions.reverse⟩

/-- The name of the function that a run begins with. -/
def entryPoint : String := "main"

end Wordlet
