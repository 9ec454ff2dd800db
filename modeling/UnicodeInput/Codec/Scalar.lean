import UnicodeInput.Codec.Utf8
import UnicodeInput.Codec.Utf16
import UnicodeInput.Codec.Utf32

/-! One scalar value in any encoding. Marks are no part of this. -/
namespace UnicodeInput.Codec

def decodeScalar {σ : Type} [ByteSource σ] : Encoding → EStateM DecodeError σ Char
  | .utf8 => Utf8.decode .utf8
  | .utf8Bom => Utf8.decode .utf8Bom
  | .utf16 order => Utf16.decode order
  | .utf32 order => Utf32.decode order

def encodeScalar : Encoding → Char → List UInt8
  | .utf8, c | .utf8Bom, c => Utf8.encode c
  | .utf16 order, c => Utf16.encode order c
  | .utf32 order, c => Utf32.encode order c

/-- Appends the bytes of the scalar value numbered `value` to a sink. Any other number leaves the
sink alone. -/
def encodeNumber (encoding : Encoding) (value : Nat) : EStateM Unencodable (Array UInt8) Unit :=
  match Codespace.scalar? value with
  | some c => modify fun (sink : Array UInt8) => sink ++ encodeScalar encoding c
  | none => throw ⟨encoding, value⟩

end UnicodeInput.Codec
