import Wordlet.Token

/-!
# Scanning a text into tokens

A scan reads its text one character at a time. It keeps the position of the next token, whether
a comment is open, and the word read so far. The position moves over a word only when the word
ends, so while a word is pending the position is the place where it began.

* `Scan.push` — the effect of one character.
* `Scan.read` — the effect of a whole text; the last word ends with the text, while the position
  and an open comment stay for the next text.
* `Token.scan` — the tokens of a single text.
-/

namespace Wordlet

/-- The state of a scan. -/
structure Scan where
  path : String
  line : Nat := 1
  column : Nat := 1
  /-- A comment is open: it runs to the end of the line. -/
  inComment : Bool := false
  /-- The characters of the pending word, the latest first. -/
  pending : List Char := []
  tokens : Array Token := #[]
deriving Repr, Inhabited

namespace Scan

/-- The columns that a tab takes. -/
def tabWidth : Nat := 4

/-- The place of the next token. -/
def loc (s : Scan) : Location := ⟨s.path, s.line, s.column⟩

/-- Moves `n` columns to the right. -/
def advance (s : Scan) (n : Nat) : Scan := { s with column := s.column + n }

/-- Moves to the start of the next line. -/
def newline (s : Scan) : Scan := { s with line := s.line + 1, column := 1 }

/-- Adds a token at the present place. -/
def emit (s : Scan) (l : Lexeme) : Scan := { s with tokens := s.tokens.push ⟨l, s.loc⟩ }

/-- Ends the pending word, if there is one, and moves past it. -/
def endWord (s : Scan) : Scan :=
  match s.pending with
  | [] => s
  | c :: cs =>
    { (s.emit (.word (String.ofList (c :: cs).reverse))).advance (c :: cs).length with
      pending := [] }

/-- One character outside a comment. -/
def pushCode (s : Scan) (c : Char) : Scan :=
  match Symbol.ofChar? c with
  | some sym => (s.endWord.emit (.symbol sym)).advance 1
  | none =>
    if c = '#' then { s.endWord.advance 1 with inComment := true }
    else if c = '\n' then s.endWord.newline
    else if c = '\t' then s.endWord.advance tabWidth
    else if c = ' ' then s.endWord.advance 1
    else if c = '\r' then s.endWord
    else { s with pending := c :: s.pending }

/-- One character inside a comment: every character is one column wide, and the comment ends with
its line. -/
def pushComment (s : Scan) (c : Char) : Scan :=
  if c = '\n' then { s.newline with inComment := false } else s.advance 1

/-- One character. -/
def push (s : Scan) (c : Char) : Scan :=
  if s.inComment then s.pushComment c else s.pushCode c

/-- A whole text, and the end of its last word. -/
def read (s : Scan) (source : String) : Scan := (source.toList.foldl push s).endWord

/-- A scan at the start of the text at `path`. -/
def start (path : String) : Scan := { path }

/-- Forgets the tokens read so far and keeps the rest of the state. -/
def clear (s : Scan) : Scan := { s with tokens := #[] }

/-- The texts `sources` read in turn by one scan: for each the state after it, with the tokens of
that text alone. -/
def readAll (s : Scan) : List String → List Scan
  | [] => []
  | source :: rest =>
    let after := s.clear.read source
    after :: after.readAll rest

end Scan

/-- The tokens of the text `source`, located at `path`. -/
def Token.scan (source path : String) : List Token := ((Scan.start path).read source).tokens.toList

end Wordlet
