import UnicodeInput.Codec.Bytes

/-! Reading and writing byte-order marks.

On a source, the optional mark of UTF-8 is decided by its first byte, since no more than one byte
can be given back. -/
namespace UnicodeInput.Codec

variable {σ : Type} [ByteSource σ]

/-- Consumes exactly `expected`, and names the first byte that is different or missing. -/
def expectBytes (encoding : Encoding) : (expected : List UInt8) → EStateM DecodeError σ Unit
  | [] => pure ()
  | byte :: rest => fun source =>
    let wrong := DecodeError.wrongMark encoding byte (ByteSource.position source)
    match ByteSource.read source with
    | .ok got source =>
      if got = byte then expectBytes encoding rest source else .error wrong source
    | .error (.exhausted _) source => .error wrong source
    | .error error source => .error (.source error) source

/-- Consumes the mark of an encoding. UTF-8 has none to consume, or one that may be missing. -/
def readMark : Encoding → EStateM DecodeError σ Unit
  | .utf8 => pure ()
  | .utf8Bom => do
    if ← ByteSource.more then
      let first ← EStateM.adaptExcept .source ByteSource.read
      if first = 0xEF then expectBytes .utf8Bom [0xBB, 0xBF] else putBack first
  | .utf16 order => expectBytes (.utf16 order) (Encoding.utf16 order).mark
  | .utf32 order => expectBytes (.utf32 order) (Encoding.utf32 order).mark

def writeMark (encoding : Encoding) (sink : Array UInt8) : Array UInt8 := sink ++ encoding.mark

end UnicodeInput.Codec
