import UnicodeInput.Word

/-! Structured values: what configuration files hold, whatever their syntax. -/
namespace UnicodeInput.Structured

inductive Value where
  | null
  | bool (value : Bool)
  /-- A number written as an integer. -/
  | integer (value : Int)
  /-- A number written in any other way, with a point, an exponent or the sign of a negative zero:
  its digits, with so many of them after the point. It may be whole all the same. -/
  | decimal (digits : Int) (places : Nat)
  | text (value : String)
  | list (items : List Value)
  | record (fields : List (String × Value))
  deriving Inhabited, Repr

namespace Value

/-- The count that a value is: an integer that is a word. A decimal is no count, whole or not. -/
def count? : Value → Option Nat
  | integer value => if 0 ≤ value ∧ value < Word.limit then some value.toNat else none
  | _ => none

/-- The text that a value is, where none is allowed too. -/
def textOrNull? : Value → Option (Option String)
  | null => some none
  | text value => some (some value)
  | _ => none

def ofCount (n : Nat) : Value := integer n

def ofText? : Option String → Value
  | none => null
  | some value => text value

end Value

end UnicodeInput.Structured
