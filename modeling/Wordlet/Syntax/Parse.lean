import Wordlet.Syntax.Expr
import Wordlet.Text.Numeral
import Wordlet.Token

/-!
# Reading trees from tokens

    program     := function*
    function    := WORD "(" (WORD ","?)* ")" block
    block       := "{" expression? "}"
    expression  := "if" expression block ("else" block)?
                 | WORD "(" (expression ","?)* ")"
                 | WORD

A `Parser` takes the tokens that are left and gives a value or a cause of failure, in both cases
with the tokens left then. So a failure says where it arose, and reading can go on from there.

* `Parse.expression`, `Parse.block`, `Parse.definition`, `Parse.definitions` — the parsers of the
  grammar.
* `Parser.run` — a parser applied at a position of a token list, the failure located.
* `Program.parse` — the program of a token list.
-/

namespace Wordlet

/-- What the grammar asks for at some place. -/
inductive Expected where
  | functionName
  | openParen
  | closeParenOrWord
  | openBrace
  | closeBrace
  | word
deriving DecidableEq, Repr

/-- Why a token list is no program. -/
inductive SyntaxCause where
  /-- The tokens end inside a construct. -/
  | endOfInput
  /-- The next token is none of those that the grammar asks for. -/
  | expected (what : Expected)
  /-- A numeral has more digits than are read. -/
  | numeralTooLong (digits : Nat)
deriving DecidableEq, Repr

/-- A cause and its place. -/
structure SyntaxError where
  cause : SyntaxCause
  loc : Location
deriving DecidableEq, Repr

namespace Expected

/-- The wording of what is asked for. -/
def text : Expected → String
  | functionName => "a function name"
  | openParen => "an opening parenthesis"
  | closeParenOrWord => "a closing parenthesis or a word"
  | openBrace => "an opening brace"
  | closeBrace => "a closing brace"
  | word => "a word"

end Expected

namespace SyntaxCause

/-- The wording of a cause. -/
def message : SyntaxCause → String
  | endOfInput => "unexpected end of input"
  | expected what => "expected " ++ what.text
  | numeralTooLong n => Text.tooManyDigits (some n)

/-- The cause lies in the grammar, and its message is headed by a place. -/
def isLocated : SyntaxCause → Bool
  | numeralTooLong _ => false
  | _ => true

end SyntaxCause

/-- The text of a syntax error. -/
def SyntaxError.text (e : SyntaxError) : String :=
  Location.head (if e.cause.isLocated then some e.loc else none) e.cause.message

/-- The answer of a parser, with the tokens that are left. -/
inductive Reply (α : Type) where
  | ok (value : α) (rest : List Token)
  | fail (cause : SyntaxCause) (rest : List Token)
deriving Repr

namespace Reply

/-- Goes on after a success. -/
def andThen {α β : Type} (r : Reply α) (f : α → List Token → Reply β) : Reply β :=
  match r with
  | ok a rest => f a rest
  | fail c rest => fail c rest

/-- Changes the value of a success. -/
def map {α β : Type} (f : α → β) : Reply α → Reply β
  | ok a rest => ok (f a) rest
  | fail c rest => fail c rest

@[simp] theorem andThen_ok {α β : Type} (a : α) (ts : List Token)
    (f : α → List Token → Reply β) : (ok a ts).andThen f = f a ts := rfl

@[simp] theorem andThen_fail {α β : Type} (c : SyntaxCause) (ts : List Token)
    (f : α → List Token → Reply β) : (fail c ts : Reply α).andThen f = fail c ts := rfl

@[simp] theorem map_ok {α β : Type} (f : α → β) (a : α) (ts : List Token) :
    (ok a ts).map f = ok (f a) ts := rfl

@[simp] theorem map_fail {α β : Type} (f : α → β) (c : SyntaxCause) (ts : List Token) :
    (fail c ts : Reply α).map f = fail c ts := rfl

/-- The tokens that are left. -/
def rest {α : Type} : Reply α → List Token
  | ok _ rest => rest
  | fail _ rest => rest

end Reply

/-- A parser: from the tokens that are left to an answer. -/
abbrev Parser (α : Type) := List Token → Reply α

namespace Parse

/-- The tokens after the symbol `s`, if it comes next. -/
def after? (s : Symbol) : List Token → Option (List Token)
  | [] => none
  | t :: rest => if t.lexeme = .symbol s then some rest else none

/-- The tokens after the word `w`, if it comes next. -/
def afterWord? (w : String) : List Token → Option (List Token)
  | [] => none
  | t :: rest => if t.lexeme = .word w then some rest else none

/-- The symbol `s`, for which the grammar asks in the words `what`; gives its place. -/
def symbol (s : Symbol) (what : Expected) : Parser Location
  | [] => .fail .endOfInput []
  | t :: rest => if t.lexeme = .symbol s then .ok t.loc rest else .fail (.expected what) (t :: rest)

/-- A word, for which the grammar asks in the words `what`; gives its text and its place. -/
def word (what : Expected) : Parser (String × Location)
  | [] => .fail .endOfInput []
  | t :: rest =>
    match t.lexeme with
    | .word w => .ok (w, t.loc) rest
    | .symbol _ => .fail (.expected what) (t :: rest)

/-- The tokens after a comma, if one comes next. -/
def skipComma (ts : List Token) : List Token := (after? .comma ts).getD ts

/-- Parameters up to the closing parenthesis; a comma may follow a parameter, and `comma` says that
one may come now. -/
def parametersFrom (comma : Bool) : Parser (List Parameter)
  | [] => .fail .endOfInput []
  | t :: rest =>
    match t.lexeme with
    | .word w => (parametersFrom true rest).map (⟨some t.loc, w⟩ :: ·)
    | .symbol .closeParen => .ok [] rest
    | .symbol .comma =>
      if comma then parametersFrom false rest else .fail (.expected .closeParenOrWord) (t :: rest)
    | .symbol _ => .fail (.expected .closeParenOrWord) (t :: rest)

/-- Parameters up to the closing parenthesis. -/
def parameters : Parser (List Parameter) := parametersFrom false

/-- A block whose expression is read by `inner`. -/
def blockOf (inner : Parser Expr) : Parser Expr := fun ts =>
  (symbol .openBrace .openBrace ts).andThen fun loc ts =>
    match after? .closeBrace ts with
    | some rest => .ok (.empty (some loc)) rest
    | none =>
      (inner ts).andThen fun e ts =>
        (symbol .closeBrace .closeBrace ts).map fun _ => e

/-- At most `n` arguments, each read by `inner`, up to the closing parenthesis; a comma may follow
an argument. -/
def argumentsOf (inner : Parser Expr) : Nat → Parser (List Expr)
  | 0, ts => .fail .endOfInput ts
  | n + 1, ts =>
    match after? .closeParen ts with
    | some rest => .ok [] rest
    | none =>
      (inner ts).andThen fun e ts => (argumentsOf inner n (skipComma ts)).map (e :: ·)

/-- The greatest value that a literal can have. -/
def maxLiteral : Nat := 4294967295

/-- A word that is no call: a literal when it is a numeral of at most `maxLiteral`, and a variable
otherwise. -/
def bareWord (w : String) (loc : Location) : Parser Expr := fun ts =>
  match Text.wordDigits? w.toList with
  | none => .ok (.var (some loc) w) ts
  | some ds =>
    if Text.maxDigits < ds.length then .fail (.numeralTooLong ds.length) ts
    else if Text.ofDigits ds ≤ maxLiteral then .ok (.literal (some loc) (Text.ofDigits ds)) ts
    else .ok (.var (some loc) w) ts

/-- A branch after its first word, its parts read by `inner`. -/
def branchOf (inner : Parser Expr) (loc : Location) : Parser Expr := fun ts =>
  (inner ts).andThen fun c ts =>
    (blockOf inner ts).andThen fun t ts =>
      match afterWord? "else" ts with
      | some ts => (blockOf inner ts).map fun e => .branch (some loc) c t e
      | none => .ok (.branch (some loc) c t (.empty (some loc))) ts

/-- An expression whose parts are read by `inner`. -/
def expressionOf (inner : Parser Expr) : Parser Expr := fun ts =>
  (word .word ts).andThen fun (w, loc) ts =>
    if w = "if" then branchOf inner loc ts
    else
      match after? .openParen ts with
      | some ts => (argumentsOf inner (ts.length + 1) ts).map (.call (some loc) w)
      | none => bareWord w loc ts

/-- An expression with at most `n` expressions inside one another. -/
def expressionUpTo : Nat → Parser Expr
  | 0 => fun ts => .fail .endOfInput ts
  | n + 1 => expressionOf (expressionUpTo n)

/-- An expression. Each expression inside another takes a token, so the tokens bound the nesting. -/
def expression : Parser Expr := fun ts => expressionUpTo (ts.length + 1) ts

/-- A block: one expression or none between braces. -/
def block : Parser Expr := blockOf expression

/-- A function definition. -/
def definition : Parser Definition := fun ts =>
  (word .functionName ts).andThen fun (name, loc) ts =>
    (symbol .openParen .openParen ts).andThen fun _ ts =>
      (parameters ts).andThen fun ps ts =>
        (block ts).map fun body => ⟨some loc, name, ps, body⟩

/-- At most `n` definitions up to the end of the tokens. -/
def definitionsUpTo : Nat → Parser (List Definition)
  | _, [] => .ok [] []
  | 0, t :: ts => .fail .endOfInput (t :: ts)
  | n + 1, t :: ts =>
    (definition (t :: ts)).andThen fun d ts => (definitionsUpTo n ts).map (d :: ·)

/-- Definitions up to the end of the tokens. Each takes a token, so the tokens bound their
number. -/
def definitions : Parser (List Definition) := fun ts => definitionsUpTo ts.length ts

end Parse

/-- What reading from some position gave, and the position reached. -/
structure Reading (α : Type) where
  outcome : Except SyntaxError α
  position : Nat

namespace Parser

/-- The place that a failure among `tokens` is reported at: the next token, or the last one when
none is left. -/
def failureLoc (tokens rest : List Token) : Location :=
  match rest.head?, tokens.getLast? with
  | some t, _ => t.loc
  | none, some t => t.loc
  | none, none => Location.start "<input>"

/-- Applies a parser to `tokens` from the position `start` on. -/
def run {α : Type} (p : Parser α) (tokens : List Token) (start : Nat) : Reading α :=
  match p (tokens.drop start) with
  | .ok a rest => ⟨.ok a, tokens.length - rest.length⟩
  | .fail cause rest =>
    ⟨.error ⟨cause, failureLoc tokens rest⟩, tokens.length - rest.length⟩

end Parser

namespace Program

/-- The program that the tokens from the position `start` on spell. It is located at the first
token of all. -/
def parseFrom (tokens : List Token) (start : Nat) : Reading Program :=
  let r := Parser.run Parse.definitions tokens start
  ⟨r.outcome.map fun ds => ⟨tokens.head?.map (·.loc), ds⟩, r.position⟩

/-- The program that the tokens spell. -/
def parse (tokens : List Token) : Except SyntaxError Program := (parseFrom tokens 0).outcome

/-- `times` readings in turn, each from where the one before came to stand, the first from
`start`. -/
def parseAgain (tokens : List Token) : Nat → Nat → List (Reading Program)
  | 0, _ => []
  | times + 1, start =>
    let r := parseFrom tokens start
    r :: parseAgain tokens times r.position

end Program

end Wordlet
