import UnicodeInput.Codec.Bytes
import UnicodeInput.Codespace

/-! UTF-32: four bytes for every scalar value. -/
namespace UnicodeInput.Codec.Utf32

variable {σ : Type} [ByteSource σ]

def decode (order : ByteOrder) : EStateM DecodeError σ Char := do
  let start ← ByteSource.here
  let value ← order.join <$> nextBytes (.utf32 order) 4
  if Codespace.isSurrogate value then
    throw (.loneSurrogate (.utf32 order) start value)
  else
    scalarOr (.malformed (.utf32 order) start) value

def encode (order : ByteOrder) (c : Char) : List UInt8 := order.split 4 c.toNat

end UnicodeInput.Codec.Utf32
