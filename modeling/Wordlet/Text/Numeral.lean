import Wordlet.Text.Blank
import Wordlet.Text.Digit

/-!
# Numerals

Two forms of integer text are read. A source word is a numeral when it is an optional plus sign and
ASCII digits (`wordDigits?`). A setting is more liberal (`integer?`): white space around it, either
sign, digits of any script, and single underscores strictly between digits. Both refuse to read
more than `maxDigits` digits, and no integer with more digits is written (`hasDecimal`).
-/

namespace Wordlet.Text

/-- The longest numeral that is read or written, in digits; leading zeros count. -/
def maxDigits : Nat := 4300

/-- What is said of an integer with more digits; reading counts them. -/
def tooManyDigits (count : Option Nat) : String :=
  let counted := match count with
    | some n => ": value has " ++ toString n ++ " digits"
    | none => ""
  "Exceeds the limit (" ++ toString maxDigits ++ " digits) for integer string conversion" ++
    counted ++ "; use sys.set_int_max_str_digits() to increase the limit"

/-- The number that a row of digit values denotes, the leading digit first. -/
def ofDigits (ds : List Nat) : Nat := ds.foldl (fun n d => 10 * n + d) 0

/-- The text without one leading plus sign. -/
def dropPlus : List Char → List Char
  | '+' :: cs => cs
  | cs => cs

/-- The digits of a word that is an optional plus sign and one or more ASCII digits. -/
def wordDigits? (cs : List Char) : Option (List Nat) :=
  match dropPlus cs with
  | [] => none
  | ds => ds.mapM asciiDigitValue?

/-- What follows a digit: further digits, each with at most one underscore before it. -/
def digitsAfter? : List Char → Option (List Nat)
  | [] => some []
  | '_' :: c :: cs =>
    match digitValue? c, digitsAfter? cs with
    | some d, some ds => some (d :: ds)
    | _, _ => none
  | c :: cs =>
    match digitValue? c, digitsAfter? cs with
    | some d, some ds => some (d :: ds)
    | _, _ => none

/-- One or more digits with single underscores strictly between them. -/
def digits? : List Char → Option (List Nat)
  | [] => none
  | c :: cs =>
    match digitValue? c, digitsAfter? cs with
    | some d, some ds => some (d :: ds)
    | _, _ => none

/-- The number that unsigned digits denote, unless there are too many. -/
def natural? (cs : List Char) : Option Nat :=
  match digits? cs with
  | some ds => if ds.length ≤ maxDigits then some (ofDigits ds) else none
  | none => none

/-- The integer that a text denotes. -/
def integer? (s : String) : Option Int :=
  match trim isSpace s.toList with
  | '-' :: cs => (natural? cs).map fun n => -(n : Int)
  | '+' :: cs => (natural? cs).map fun n => (n : Int)
  | cs => (natural? cs).map fun n => (n : Int)

/-- The decimal text of an integer. -/
def decimal (n : Int) : String := toString n

/-- The integer can be written: it has no more than `maxDigits` digits. -/
def hasDecimal (n : Int) : Bool := n.natAbs < Nat.pow 10 maxDigits

/-- Integers of ten digits can be written. -/
theorem hasDecimal_of_natAbs_lt {n : Int} (h : n.natAbs < 10000000000) : hasDecimal n = true := by
  have hpow : ∀ k, 10 ≤ k → Nat.pow 10 10 ≤ Nat.pow 10 k :=
    fun _ hk => Nat.pow_le_pow_right (by decide) hk
  simp only [hasDecimal, decide_eq_true_eq]
  exact Nat.lt_of_lt_of_le h (hpow maxDigits (by decide))

end Wordlet.Text
