import Wordlet.Location
import Wordlet.Text.Quoted

/-!
# Tokens

A source text is a sequence of words and eight symbols. The text of a word is free: whether it
is a keyword, a numeral, a variable or a function is decided where trees are read.
-/

namespace Wordlet

/-- The characters that stand for themselves. -/
inductive Symbol where
  | openParen
  | closeParen
  | openBrace
  | closeBrace
  | openBracket
  | closeBracket
  | comma
  | colon
deriving DecidableEq, Repr, Inhabited

namespace Symbol

/-- The character of a symbol. -/
def char : Symbol → Char
  | openParen => '('
  | closeParen => ')'
  | openBrace => '\x7b'
  | closeBrace => '\x7d'
  | openBracket => '['
  | closeBracket => ']'
  | comma => ','
  | colon => ':'

/-- The symbol that a character stands for. -/
def ofChar? (c : Char) : Option Symbol :=
  if c = '(' then some openParen
  else if c = ')' then some closeParen
  else if c = '\x7b' then some openBrace
  else if c = '\x7d' then some closeBrace
  else if c = '[' then some openBracket
  else if c = ']' then some closeBracket
  else if c = ',' then some comma
  else if c = ':' then some colon
  else none

/-- The name of a symbol's class. -/
def kind : Symbol → String
  | openParen => "LPAREN"
  | closeParen => "RPAREN"
  | openBrace => "LBRACE"
  | closeBrace => "RBRACE"
  | openBracket => "LBRACKET"
  | closeBracket => "RBRACKET"
  | comma => "COMMA"
  | colon => "COLON"

@[simp] theorem ofChar?_char (s : Symbol) : ofChar? s.char = some s := by
  cases s <;> rfl

end Symbol

/-- What a token is, apart from where it stands. -/
inductive Lexeme where
  | word (text : String)
  | symbol (symbol : Symbol)
deriving DecidableEq, Repr, Inhabited

namespace Lexeme

/-- The characters of a lexeme. -/
def text : Lexeme → String
  | word w => w
  | symbol s => s.char.toString

/-- The name of a lexeme's class. -/
def kind : Lexeme → String
  | word _ => "WORD"
  | symbol s => s.kind

end Lexeme

/-- A lexeme and the place of its first character. -/
structure Token where
  lexeme : Lexeme
  loc : Location
deriving DecidableEq, Repr, Inhabited

/-- The written form of a token: its class, its text in quotes and its place in the text. -/
def Token.text (t : Token) : String :=
  "Token(" ++ t.lexeme.kind ++ ", " ++ Text.quoted t.lexeme.text ++ ", L" ++
    toString t.loc.line ++ ":" ++ toString t.loc.column ++ ")"

end Wordlet
