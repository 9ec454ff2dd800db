/-! Indices outside their range. -/
namespace UnicodeInput

/-- What an index was held against. -/
inductive Bound where
  /-- The greatest index allowed. -/
  | inclusive (limit : Nat)
  /-- The least index not allowed. -/
  | exclusive (limit : Nat)
  deriving DecidableEq, Repr

def Bound.message : Bound → String
  | inclusive limit => s!"it should be greater than or equal to 0 and less than or equal to {limit}"
  | exclusive limit => s!"it should be greater than or equal to 0 and less than {limit}"

structure OutOfRange where
  index : Nat
  bound : Bound
  deriving DecidableEq, Repr

def OutOfRange.message (e : OutOfRange) : String :=
  s!"index outside of range ({e.index}), " ++ e.bound.message

end UnicodeInput
