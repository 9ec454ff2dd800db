/-! Byte order: which end of a number comes first.

Both orders are one arrangement of the same base-256 digits, so `join` and `split` are written once
for every width. -/
namespace UnicodeInput

/-- Whether the most significant byte of a unit comes first or last. -/
inductive ByteOrder where
  | big
  | little
  deriving DecidableEq, Repr

namespace ByteOrder

/-- The number whose base-256 digits are `bytes`, the most significant first. -/
def valueOf (bytes : List UInt8) : Nat :=
  bytes.foldl (fun value byte => value * 256 + byte.toNat) 0

/-- The last `width` base-256 digits of `value`, the most significant first. -/
def digits : (width : Nat) → (value : Nat) → List UInt8
  | 0, _ => []
  | width + 1, value => digits width (value / 256) ++ [UInt8.ofNat value]

/-- Turns digits given most significant first into this order, and back. -/
def arrange : ByteOrder → List UInt8 → List UInt8
  | big, bytes => bytes
  | little, bytes => bytes.reverse

/-- The number that `bytes` write in this order. -/
def join (order : ByteOrder) (bytes : List UInt8) : Nat :=
  valueOf (order.arrange bytes)

/-- The `width` bytes that write `value` in this order. -/
def split (order : ByteOrder) (width value : Nat) : List UInt8 :=
  order.arrange (digits width value)

end ByteOrder

end UnicodeInput
