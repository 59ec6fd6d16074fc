import Wordlet.Native.Bits

/-!
# Native functions

Nine functions are built in. Values are unsigned 32-bit integers, and arithmetic wraps; `or`, `and`,
`xor` and `equal` keep their arguments' range by themselves and reduce nothing. `print` writes its
argument and yields no value.

A definition cannot replace a native: calls look among the natives first.
-/

namespace Wordlet

/-- A built-in function. -/
inductive Native where
  | or
  | and
  | xor
  | not
  | equal
  | add
  | sub
  | multiply
  | print
deriving DecidableEq, Repr, Inhabited

namespace Native

/-- All natives in the order of their listing. -/
def all : List Native := [or, and, xor, not, equal, add, sub, multiply, print]

/-- The name that calls use. -/
def name : Native → String
  | or => "or"
  | and => "and"
  | xor => "xor"
  | not => "not"
  | equal => "equal"
  | add => "add"
  | sub => "sub"
  | multiply => "multiply"
  | print => "print"

/-- The native of a name. -/
def find? (name : String) : Option Native := all.find? (·.name == name)

/-- The names of the parameters. -/
def parameters : Native → List String
  | not | print => ["a"]
  | _ => ["a", "b"]

/-- The number of parameters. -/
def arity (n : Native) : Nat := n.parameters.length

/-- What the native does, in one line. -/
def intent : Native → String
  | or => "Bitwise OR."
  | and => "Bitwise AND."
  | xor => "Bitwise exclusive OR."
  | not => "Bitwise complement over 32 bits."
  | equal => "1 if both values are equal, 0 otherwise."
  | add => "Sum, wrapping at 2**32."
  | sub => "Difference, wrapping below zero."
  | multiply => "Product, wrapping at 2**32."
  | print => "Write the value to the program output."

/-- The native yields a value. -/
def yields : Native → Bool
  | print => false
  | _ => true

/-- The number of values that 32 bits can hold. -/
def modulus : Int := 4294967296

/-- The remainder of an integer modulo `modulus`. -/
def reduce (a : Int) : Int := a % modulus

/-- What the native makes of its arguments; nothing when their number is wrong. -/
def value? : Native → List Int → Option Int
  | or, [a, b] => some (Bits.or a b)
  | and, [a, b] => some (Bits.and a b)
  | xor, [a, b] => some (Bits.xor a b)
  | not, [a] => some (reduce (Bits.not a))
  | equal, [a, b] => some (if a = b then 1 else 0)
  | add, [a, b] => some (reduce (a + b))
  | sub, [a, b] => some (reduce (a - b))
  | multiply, [a, b] => some (reduce (a * b))
  | print, [a] => some a
  | _, _ => none

/-- A text filled up with spaces to `width` characters. -/
def padTo (width : Nat) (s : String) : String :=
  s ++ String.ofList (List.replicate (width - s.length) ' ')

/-- A rule of `n` dashes. -/
def rule (n : Nat) : String := String.ofList (List.replicate n '─')

/-- The row of a native in the listing. -/
def row (n : Native) : String :=
  padTo 9 n.name ++ "  " ++ padTo 5 (toString n.arity) ++ "  " ++ n.intent

/-- The listing of all natives as a table. -/
def listing : String :=
  "\n".intercalate
    ("name       arity  description" :: (rule 9 ++ "  " ++ rule 5 ++ "  " ++ rule 36) ::
      all.map row)

/-- A native takes exactly as many arguments as it has parameters. -/
theorem value?_isSome_iff (n : Native) (args : List Int) :
    (n.value? args).isSome = true ↔ args.length = n.arity := by
  cases n <;> rcases args with _ | ⟨a, _ | ⟨b, _ | ⟨c, rest⟩⟩⟩ <;>
    simp [value?, arity, parameters]

/-- Every native is found under its name. -/
theorem find?_name (n : Native) : find? n.name = some n := by
  cases n <;> decide

end Native

end Wordlet
