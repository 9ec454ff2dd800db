import UnicodeInput.Codec.Scalar

/-! Decoding a run of scalar values from a source.

A decoder gives scalar values until the source is exhausted or one cannot be decoded. After an
error it gives nothing more and leaves the source alone. No mark is looked for.

Every item but the end costs the source a byte it could deliver, or its one failure, so a loop of
`deliverable + 1` steps always sees the end. -/
namespace UnicodeInput.Codec

structure Decoder (σ : Type) where
  source : σ
  encoding : Encoding
  /-- Whether an item was an error. -/
  failed : Bool := false
  deriving DecidableEq, Repr

/-- What a decoder gives: a scalar value or the reason there is none. -/
abbrev Item := Except DecodeError Char

namespace Decoder

variable {σ β : Type} [ByteSource σ]

def next (decoder : Decoder σ) : Option Item × Decoder σ :=
  if decoder.failed then (none, decoder)
  else
    match ByteSource.hasNext decoder.source with
    | (false, source) => (none, { decoder with source })
    | (true, source) =>
      match decodeScalar decoder.encoding source with
      | .ok c source => (some (.ok c), { decoder with source })
      | .error e source => (some (.error e), { decoder with source, failed := true })

def take : (n : Nat) → Decoder σ → List Item × Decoder σ
  | 0, decoder => ([], decoder)
  | n + 1, decoder =>
    match decoder.next with
    | (none, decoder) => ([], decoder)
    | (some item, decoder) =>
      let (items, decoder) := decoder.take n
      (item :: items, decoder)

/-- How many steps always reach the end. -/
def steps (decoder : Decoder σ) : Nat := ByteSource.deliverable decoder.source + 1

def items (decoder : Decoder σ) : List Item := (decoder.take decoder.steps).1

/-- Passes `n` scalar values at most to `f`, one after the other, and stops at an error. -/
def foldUpTo (f : β → Char → β) : (n : Nat) → β → EStateM DecodeError (Decoder σ) β
  | 0, acc, decoder => .ok acc decoder
  | n + 1, acc, decoder =>
    match decoder.next with
    | (none, decoder) => .ok acc decoder
    | (some (.ok c), decoder) => foldUpTo f n (f acc c) decoder
    | (some (.error e), decoder) => .error e decoder

end Decoder

/-- Decodes all of a source, passing each scalar value to `f` as it comes. -/
def foldScalars {σ β : Type} [ByteSource σ] (encoding : Encoding) (f : β → Char → β) (acc : β) :
    EStateM DecodeError σ β := fun source =>
  let decoder : Decoder σ := { source, encoding }
  match Decoder.foldUpTo f decoder.steps acc decoder with
  | .ok acc decoder => .ok acc decoder.source
  | .error e decoder => .error e decoder.source

end UnicodeInput.Codec
