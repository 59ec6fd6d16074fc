import Wordlet.Digraph
import Wordlet.Syntax.Expr

/-!
# Calls and call graphs

`Expr.callees` lists the names that an expression calls, one for each call, in the order of the
text. The call graph of a program has a node for each definition and an edge for each call, natives
included.
-/

namespace Wordlet

namespace Expr

mutual

/-- The names called in an expression, a call before the calls in its arguments. -/
def callees : Expr → List String
  | call _ f es => f :: calleesIn es
  | branch _ c t e => c.callees ++ (t.callees ++ e.callees)
  | _ => []

/-- The names called in a list of expressions. -/
def calleesIn : List Expr → List String
  | [] => []
  | e :: es => e.callees ++ calleesIn es

end

theorem calleesIn_eq_flatMap (es : List Expr) : calleesIn es = es.flatMap callees := by
  induction es with
  | nil => rfl
  | cons e es ih => simp [calleesIn, ih]

end Expr

namespace Definition

/-- The names that a definition calls. -/
def callees (d : Definition) : List String := d.body.callees

end Definition

namespace Program

/-- The call graph of a program. -/
def callGraph (p : Program) (title : String) : Digraph where
  title := title
  nodes := p.definitions.map fun d => (d.name, d.name)
  edges := p.definitions.flatMap fun d => d.callees.map fun g => (d.name, g)

end Program

end Wordlet
