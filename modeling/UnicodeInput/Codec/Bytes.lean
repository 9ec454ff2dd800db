import UnicodeInput.Codec.Error
import UnicodeInput.Codespace

/-! The bytes of a sequence, taken from a source or given back to it. What the source refuses becomes
a cause of the decoder's own. -/
namespace UnicodeInput.Codec

variable {σ : Type} [ByteSource σ]

/-- The next byte of a sequence. A source that ends here cuts the sequence short. -/
def nextByte (encoding : Encoding) : EStateM DecodeError σ UInt8 :=
  EStateM.adaptExcept
    (fun
      | .exhausted offset => .truncated encoding offset
      | error => .source error)
    ByteSource.read

/-- Gives back a byte that belongs to the next sequence. -/
def putBack (byte : UInt8) : EStateM DecodeError σ Unit :=
  EStateM.adaptExcept .source (ByteSource.unread byte)

def nextBytes (encoding : Encoding) : (n : Nat) → EStateM DecodeError σ (List UInt8)
  | 0 => pure []
  | n + 1 => do
    let byte ← nextByte encoding
    let rest ← nextBytes encoding n
    return byte :: rest

/-- The scalar value numbered `value`, or a failure if there is none. -/
def scalarOr (e : DecodeError) (value : Nat) : EStateM DecodeError σ Char :=
  match Codespace.scalar? value with
  | some c => pure c
  | none => throw e

end UnicodeInput.Codec
