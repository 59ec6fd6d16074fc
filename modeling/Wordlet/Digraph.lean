import Wordlet.Text.Raw

/-!
# Directed graphs in the DOT language

A graph has a title, labelled nodes and edges, all in the order in which they are written. Names are
written between double quotes, with a backslash before each backslash and each double quote.
-/

namespace Wordlet

/-- A directed graph. -/
structure Digraph where
  title : String
  /-- Identifier and label of each node. -/
  nodes : List (String × String)
  /-- Source and destination of each edge. -/
  edges : List (String × String)
deriving DecidableEq, Repr, Inhabited

namespace Digraph

/-- One character of a quoted name. -/
def quoteChar (c : Char) : List Char :=
  if c = '\\' ∨ c = '"' then ['\\', c] else [c]

/-- A quoted name. -/
def quote (name : String) : List Char := '"' :: (name.toList.flatMap quoteChar ++ ['"'])

/-- The line of a node. -/
def nodeLine (node : String × String) : List Char :=
  '\t' :: (quote node.1 ++ " [label=".toList ++ quote node.2 ++ "];".toList)

/-- The line of an edge. -/
def edgeLine (edge : String × String) : List Char :=
  '\t' :: (quote edge.1 ++ " -> ".toList ++ quote edge.2 ++ ";".toList)

/-- Lines with newlines between them. -/
def joinLines (lines : List (List Char)) : List Char := List.intercalate ['\n'] lines

/-- The characters of the graph's text behind its title. -/
def body (g : Digraph) : List Char :=
  " \x7b\n".toList ++ joinLines (g.nodes.map nodeLine) ++
    '\n' :: (joinLines (g.edges.map edgeLine) ++ "\n\x7d".toList)

/-- The characters of the graph's text. -/
def layout (g : Digraph) : List Char := "digraph ".toList ++ quote g.title ++ g.body

/-- The text of the graph. -/
def text (g : Digraph) : String := String.ofList g.layout

/-- A part of a quoted raw text. -/
def quotePiece : Piece → List Piece
  | .char c => (quoteChar c).map .char
  | .stray b => [.stray b]

/-- A quoted raw text. -/
def quoteRaw (title : Raw) : List Piece :=
  .char '"' :: (title.pieces.flatMap quotePiece ++ [.char '"'])

/-- The text of the graph with a raw text for its title. -/
def rawText (g : Digraph) (title : Raw) : Raw :=
  ⟨"digraph ".toList.map .char ++ quoteRaw title ++ g.body.map .char⟩

theorem quoteRaw_ofString (title : String) :
    quoteRaw (Raw.ofString title) = (quote title).map .char := by
  simp [quoteRaw, quote, quotePiece, List.map_flatMap, List.flatMap_map]

/-- With a text for its title this is the text of the graph. -/
theorem rawText_title (g : Digraph) : g.rawText (Raw.ofString g.title) = Raw.ofString g.text := by
  have hlayout : g.layout.map Piece.char =
      "digraph ".toList.map .char ++ (quote g.title).map .char ++ g.body.map .char := by
    unfold layout
    rw [List.map_append, List.map_append]
  rw [text, Raw.ofString_ofList, hlayout, ← quoteRaw_ofString]
  rfl

end Digraph

end Wordlet
