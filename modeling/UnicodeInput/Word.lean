/-! Numbers in words of 64 bits. Everything that is counted here is a number from zero on. Where a sum or a
difference is computed in words, the number may be missed: a program either checks for that and stops, or
goes on with what is left modulo the number of words. -/
namespace UnicodeInput

namespace Word

/-- The least number that is too great for a word. -/
def limit : Nat := 0x10000000000000000

def sum? (a b : Nat) : Option Nat := if a + b < limit then some (a + b) else none

/-- The greatest word stands for all greater numbers. -/
def saturate (n : Nat) : Nat := min n (limit - 1)

theorem sum?_eq_none_iff {a b : Nat} : sum? a b = none ↔ limit ≤ a + b := by
  unfold sum?
  split <;> simp <;> omega

theorem saturate_of_lt {n : Nat} (fits : n < limit) : saturate n = n :=
  Nat.min_eq_left (Nat.le_sub_one_of_lt fits)

end Word

/-- What becomes of a sum or a difference that is no word. -/
inductive Overflow where
  /-- There is none, and the call that needs it does not return. -/
  | stop
  /-- It is taken modulo the number of words. -/
  | wrap
  deriving DecidableEq, Repr

namespace Overflow

def add : Overflow → Nat → Nat → Option Nat
  | stop, a, b => Word.sum? a b
  | wrap, a, b => some ((a + b) % Word.limit)

def sub : Overflow → Nat → Nat → Option Nat
  | stop, a, b => if b ≤ a then some (a - b) else none
  | wrap, a, b => some ((a + Word.limit - b) % Word.limit)

theorem add_of_lt (overflow : Overflow) {a b : Nat} (fits : a + b < Word.limit) :
    overflow.add a b = some (a + b) := by
  cases overflow with
  | stop => exact if_pos fits
  | wrap => exact congrArg some (Nat.mod_eq_of_lt fits)

theorem sub_of_le (overflow : Overflow) {a b : Nat} (order : b ≤ a) (word : a < Word.limit) :
    overflow.sub a b = some (a - b) := by
  cases overflow with
  | stop => exact if_pos order
  | wrap =>
    have wrapped : a + Word.limit - b = a - b + Word.limit := Nat.sub_add_comm order
    rw [sub, wrapped, Nat.add_mod_right, Nat.mod_eq_of_lt (Nat.lt_of_le_of_lt (Nat.sub_le ..) word)]

end Overflow

end UnicodeInput
