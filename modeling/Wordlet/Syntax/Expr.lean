import Wordlet.Location

/-!
# Syntax trees

A program is a list of function definitions, and the body of a function is one expression: nothing,
a literal, a variable, a call or a branch.

A tree that was read from a text holds expressions only. A tree that was built by hand may hold,
where an expression is due, some other node: a parameter, a definition, a whole program, or a node
of a kind that has no meaning. `Expr.stray` is such a node. Every analysis passes over it, and
evaluating or formatting it fails.
-/

namespace Wordlet

/-- A declared parameter of a function. -/
structure Parameter where
  loc : Option Location
  name : String
deriving DecidableEq, Repr, Inhabited

/-- What a node is that stands where an expression is due and is none. -/
inductive Stray where
  | parameter (name : String)
  /-- A definition; its body is its only child. -/
  | definition (name : String) (parameters : List Parameter)
  /-- A program; its definitions are its children. -/
  | program
  /-- A node without meaning, of the kind it was given. -/
  | other (kind : String)
deriving DecidableEq, Repr, Inhabited

/-- The name of a stray node's kind. -/
def Stray.kind : Stray → String
  | parameter _ => "VariableDefinition"
  | definition _ _ => "FunctionDefinition"
  | program => "Program"
  | other kind => kind

/-- An expression. -/
inductive Expr where
  /-- No value: an empty block, or the missing alternative of a branch. -/
  | empty (loc : Option Location)
  | literal (loc : Option Location) (value : Int)
  | var (loc : Option Location) (name : String)
  | call (loc : Option Location) (name : String) (arguments : List Expr)
  | branch (loc : Option Location) (condition consequent alternative : Expr)
  | stray (loc : Option Location) (node : Stray) (children : List Expr)
deriving Repr, Inhabited

namespace Expr

/-- Where an expression begins. -/
def loc : Expr → Option Location
  | empty loc => loc
  | literal loc _ => loc
  | var loc _ => loc
  | call loc _ _ => loc
  | branch loc _ _ _ => loc
  | stray loc _ _ => loc

/-- The expression is the absence of a value. -/
def isEmpty : Expr → Bool
  | empty _ => true
  | _ => false

/-- An induction over expressions: a property holds of every expression if it is handed up from the
parts of an expression to the whole. -/
@[elab_as_elim]
theorem induction {motive : Expr → Prop}
    (empty : ∀ loc, motive (empty loc))
    (literal : ∀ loc value, motive (literal loc value))
    (var : ∀ loc name, motive (var loc name))
    (call : ∀ loc name arguments, (∀ a ∈ arguments, motive a) → motive (call loc name arguments))
    (branch : ∀ loc c t e, motive c → motive t → motive e → motive (branch loc c t e))
    (stray : ∀ loc node children, (∀ c ∈ children, motive c) → motive (stray loc node children))
    (e : Expr) : motive e :=
  @Expr.rec motive (fun es => ∀ e ∈ es, motive e) empty literal var call branch stray
    (fun _ h => nomatch h)
    (fun _ _ head tail _ h => by
      rcases List.mem_cons.1 h with rfl | h
      · exact head
      · exact tail _ h)
    e

end Expr

/-- A function definition. -/
structure Definition where
  loc : Option Location
  name : String
  parameters : List Parameter
  body : Expr
deriving Repr, Inhabited

/-- A program: its definitions in the order of the text. -/
structure Program where
  loc : Option Location
  definitions : List Definition
deriving Repr, Inhabited

namespace Definition

/-- The number of parameters. -/
def arity (d : Definition) : Nat := d.parameters.length

/-- The names of the parameters. -/
def parameterNames (d : Definition) : List String := d.parameters.map (·.name)

end Definition

/-- A parameter as a node of its own. -/
def Parameter.toExpr (p : Parameter) : Expr := .stray p.loc (.parameter p.name) []

/-- A definition as a node of its own. -/
def Definition.toExpr (d : Definition) : Expr :=
  .stray d.loc (.definition d.name d.parameters) [d.body]

/-- A program as a node of its own. -/
def Program.toExpr (p : Program) : Expr :=
  .stray p.loc .program (p.definitions.map Definition.toExpr)

end Wordlet
