import UnicodeInput.Codec.Bytes
import UnicodeInput.Codespace

/-! UTF-16: one unit of two bytes for a scalar value, or a pair of surrogates.

A high surrogate is lone when nothing follows it or the unit that follows does not complete the
pair. That unit is consumed all the same, since a source takes back one byte only. -/
namespace UnicodeInput.Codec.Utf16

/-- The scalar number that a pair of surrogates stands for. -/
def pairValue (high low : Nat) : Nat := 0x10000 + (high - 0xD800) * 0x400 + (low - 0xDC00)

/-- The units of a scalar number, a pair above the first plane. -/
def units (value : Nat) : List Nat :=
  if value < 0x10000 then [value]
  else [0xD800 + (value - 0x10000) / 0x400, 0xDC00 + (value - 0x10000) % 0x400]

variable {σ : Type} [ByteSource σ]

def nextUnit (order : ByteOrder) : EStateM DecodeError σ Nat :=
  order.join <$> nextBytes (.utf16 order) 2

def decode (order : ByteOrder) : EStateM DecodeError σ Char := do
  let start ← ByteSource.here
  let unit ← nextUnit order
  let lone := DecodeError.loneSurrogate (.utf16 order) start unit
  if Codespace.isHighSurrogate unit then
    if ← ByteSource.more then
      let low ← nextUnit order
      if Codespace.isLowSurrogate low then
        scalarOr lone (pairValue unit low)
      else throw lone
    else throw lone
  else if Codespace.isLowSurrogate unit then
    throw lone
  else
    scalarOr (.malformed (.utf16 order) start) unit

def encode (order : ByteOrder) (c : Char) : List UInt8 :=
  (units c.toNat).flatMap (order.split 2)

end UnicodeInput.Codec.Utf16
