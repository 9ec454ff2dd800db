import UnicodeInput.Codec.Bytes
import UnicodeInput.Codespace

/-! UTF-8: one to four bytes for a scalar value.

The lead byte announces how many continuation bytes follow and the least value that needs that
many. A sequence is judged once it is complete, so an overlong form or an encoded surrogate is
consumed as a whole. A byte that continues nothing is given back, so what follows stays readable. -/
namespace UnicodeInput.Codec.Utf8

/-- What a lead byte says of its sequence. -/
structure Lead where
  continuations : Nat
  /-- The bits that the lead byte itself carries. -/
  payload : Nat
  /-- The least value written with this many bytes. -/
  least : Nat
  deriving DecidableEq, Repr

/-- Bytes that begin no sequence: continuations, the leads of overlong pairs only, and the leads of
values past the codespace. -/
def Lead.ofByte? (byte : UInt8) : Option Lead :=
  if byte ≤ 0x7F then some ⟨0, byte.toNat, 0⟩
  else if 0xC2 ≤ byte ∧ byte ≤ 0xDF then some ⟨1, byte.toNat % 0x20, 0x80⟩
  else if 0xE0 ≤ byte ∧ byte ≤ 0xEF then some ⟨2, byte.toNat % 0x10, 0x800⟩
  else if 0xF0 ≤ byte ∧ byte ≤ 0xF4 then some ⟨3, byte.toNat % 0x08, 0x10000⟩
  else none

def isContinuation (byte : UInt8) : Bool := 0x80 ≤ byte && byte ≤ 0xBF

/-- The value of a sequence with one more continuation byte. -/
def extend (value : Nat) (byte : UInt8) : Nat := value * 0x40 + byte.toNat % 0x40

variable {σ : Type} [ByteSource σ]

/-- Reads `n` continuation bytes behind what `value` holds. -/
def continuations (encoding : Encoding) (start : Nat) : (n value : Nat) → EStateM DecodeError σ Nat
  | 0, value => pure value
  | n + 1, value => do
    let byte ← nextByte encoding
    if isContinuation byte then
      continuations encoding start n (extend value byte)
    else
      putBack byte
      throw (.malformed encoding start)

/-- Reads one scalar value. The encoding is either UTF-8 one and only named in errors. -/
def decode (encoding : Encoding) : EStateM DecodeError σ Char := do
  let start ← ByteSource.here
  let byte ← nextByte encoding
  match Lead.ofByte? byte with
  | none => throw (.malformed encoding start)
  | some lead =>
    let value ← continuations encoding start lead.continuations lead.payload
    if value < lead.least then
      throw (.malformed encoding start)
    else
      scalarOr (.malformed encoding start) value

def encode (c : Char) : List UInt8 := String.utf8EncodeChar c

end UnicodeInput.Codec.Utf8
