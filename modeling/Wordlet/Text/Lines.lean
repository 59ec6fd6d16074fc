/-!
# Lines of a text

A text breaks into lines at every line boundary that Unicode knows, a carriage return and newline
together counting as one. A boundary at the very end starts no further line.

* `unifyNewlines` — every line end written with a carriage return becomes a newline.
* `splitLines` — the lines of a text.
* `indent` — the text with its non-empty lines moved in.
-/

namespace Wordlet.Text

/-- The worker of `unifyNewlines`: `after` says that the character before was a carriage return,
so that a newline here belongs to it. -/
def unifyNewlinesFrom (after : Bool) : List Char → List Char
  | [] => []
  | c :: cs =>
    if c = '\r' then '\n' :: unifyNewlinesFrom true cs
    else if c = '\n' ∧ after = true then unifyNewlinesFrom false cs
    else c :: unifyNewlinesFrom false cs

/-- The text with a newline in the place of each carriage return and newline, and of each carriage
return that stands alone. -/
def unifyNewlines (cs : List Char) : List Char := unifyNewlinesFrom false cs

/-- A boundary between two lines. -/
def isLineEnd (c : Char) : Bool :=
  let n := c.toNat
  (0x0a ≤ n && n ≤ 0x0d) || (0x1c ≤ n && n ≤ 0x1e) || n = 0x85 || n = 0x2028 || n = 0x2029

/-- Puts a character in front of a text that is already in lines. -/
def consLines (c : Char) (lines : List (List Char)) : List (List Char) :=
  if isLineEnd c then [] :: lines
  else match lines with
    | [] => [[c]]
    | line :: rest => (c :: line) :: rest

/-- The lines of a text, without their ends. -/
def splitLines (cs : List Char) : List (List Char) := (unifyNewlines cs).foldr consLines []

/-- The lines of `cs`, each with a tab before it unless it is empty, joined by newlines. -/
def indent (cs : List Char) : List Char :=
  List.intercalate ['\n'] <| (splitLines cs).map fun line =>
    if line.isEmpty then line else '\t' :: line

end Wordlet.Text
