import UnicodeInput.Codec.Decoder
import UnicodeInput.Codec.Mark
import UnicodeInput.Source.Memory

/-! Whole inputs: decoding, encoding and re-encoding bytes that are all in memory.

Here the whole optional mark of UTF-8 can be seen at once. It is skipped only if it is complete, so
input without a mark may begin with any scalar value. -/
namespace UnicodeInput.Codec

/-- The source of what follows the mark. -/
def afterMark (encoding : Encoding) (bytes : List UInt8) : Except DecodeError MemorySource :=
  let source := MemorySource.ofBytes bytes
  match encoding with
  | .utf8Bom =>
    if Encoding.utf8Bom.mark.isPrefixOf bytes then .ok (source.skip Encoding.utf8Bom.mark.length)
    else .ok source
  | _ =>
    match readMark encoding source with
    | .ok () source => .ok source
    | .error e _ => .error e

/-- Decodes everything behind the mark into `f`. -/
def foldWhole {β : Type} (encoding : Encoding) (bytes : List UInt8) (f : β → Char → β) (acc : β) :
    Except DecodeError β := do
  let source ← afterMark encoding bytes
  match foldScalars encoding f acc source with
  | .ok acc _ => .ok acc
  | .error e _ => .error e

def decode (encoding : Encoding) (bytes : List UInt8) : Except DecodeError (List Char) :=
  Array.toList <$> foldWhole encoding bytes Array.push #[]

/-- The bytes that encode `scalars`, mark included. -/
def encode (encoding : Encoding) (scalars : List Char) : List UInt8 :=
  encoding.mark ++ scalars.flatMap (encodeScalar encoding)

/-- Moves `n` scalar values at most from a source in one encoding to a sink in another. -/
def copyUpTo {σ : Type} [ByteSource σ] (input output : Encoding) :
    (n : Nat) → Array UInt8 → EStateM DecodeError σ (Array UInt8)
  | 0, sink => pure sink
  | n + 1, sink => do
    if ← ByteSource.more then
      let c ← decodeScalar input
      copyUpTo input output n (sink ++ encodeScalar output c)
    else
      return sink

/-- Writes `bytes` in another encoding, with its mark. Each scalar value is written as soon as it is
read. -/
def transcode (input output : Encoding) (bytes : List UInt8) : Except DecodeError (List UInt8) := do
  let source ← afterMark input bytes
  match copyUpTo input output (source.deliverable + 1) (writeMark output #[]) source with
  | .ok sink _ => .ok sink.toList
  | .error e _ => .error e

end UnicodeInput.Codec
