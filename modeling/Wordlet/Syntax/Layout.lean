import Wordlet.Syntax.Expr
import Wordlet.Text.Lines

/-!
# The canonical layout

A program has one canonical text: a blank line between functions, bodies indented by one tab,
branches over several lines, and no `else` with an empty block.

* `Expr.layout`, `Definition.layout`, `Program.layout` — the canonical texts. They are total: a
  stray node has no text.
* `Expr.format`, `Program.format` — the same, refusing a tree with a stray node.
-/

namespace Wordlet

/-- A tree cannot be formatted: it holds a node of this kind, which is no expression. -/
structure FormatError where
  kind : String
deriving DecidableEq, Repr

/-- The text of a format error. -/
def FormatError.text (e : FormatError) : String :=
  "cannot format " ++ (if e.kind = "" then "ASTNode" else e.kind) ++ " node"

/-- A text between braces, on lines of its own. -/
def bracedBlock (text : List Char) : List Char :=
  '\x7b' :: '\n' :: (Text.indent text ++ ['\n', '\x7d'])

/-- Texts with a comma and a space between them. -/
def commaList (texts : List (List Char)) : List Char := List.intercalate [',', ' '] texts

namespace Expr

mutual

/-- The canonical text of an expression. -/
def layout : Expr → List Char
  | empty _ => []
  | literal _ v => (toString v).toList
  | var _ x => x.toList
  | call _ f es => f.toList ++ '(' :: (commaList (layouts es) ++ [')'])
  | branch _ c t e =>
    "if ".toList ++ c.layout ++ ' ' :: bracedBlock t.layout ++
      (if e.isEmpty then [] else " else ".toList ++ bracedBlock e.layout)
  | stray _ _ _ => []

/-- The canonical texts of expressions. -/
def layouts : List Expr → List (List Char)
  | [] => []
  | e :: es => e.layout :: layouts es

end

theorem layouts_eq_map (es : List Expr) : layouts es = es.map layout := by
  induction es with
  | nil => rfl
  | cons e es ih => simp [layouts, ih]

mutual

/-- The first node, in the order of the text, that is no expression. -/
def stray? : Expr → Option Stray
  | empty _ | literal _ _ | var _ _ => none
  | call _ _ es => strayIn? es
  | branch _ c t e => c.stray?.or (t.stray?.or e.stray?)
  | stray _ s _ => some s

/-- The first node in a list of expressions that is no expression. -/
def strayIn? : List Expr → Option Stray
  | [] => none
  | e :: es => e.stray?.or (strayIn? es)

end

theorem strayIn?_eq_findSome? (es : List Expr) : strayIn? es = es.findSome? stray? := by
  induction es with
  | nil => rfl
  | cons e es ih => cases h : e.stray? <;> simp [strayIn?, h, ih]

/-- The canonical text of an expression that holds no stray node. -/
def format (e : Expr) : Except FormatError String :=
  match e.stray? with
  | some s => .error ⟨s.kind⟩
  | none => .ok (String.ofList e.layout)

end Expr

/-- The canonical text of a definition. -/
def Definition.layout (d : Definition) : List Char :=
  d.name.toList ++ '(' :: (commaList (d.parameters.map (·.name.toList)) ++
    ")".toList ++ ' ' :: bracedBlock d.body.layout)

namespace Program

/-- The canonical text of a program, without a newline at its end. -/
def layout (p : Program) : List Char :=
  List.intercalate ['\n', '\n'] (p.definitions.map Definition.layout)

/-- The canonical text of a program that holds no stray node. -/
def format (p : Program) : Except FormatError String :=
  match p.definitions.findSome? (·.body.stray?) with
  | some s => .error ⟨s.kind⟩
  | none => .ok (String.ofList p.layout)

end Program

end Wordlet
