import UnicodeInput.Codespace

/-! UTF-8 text with faults: what cannot be decoded becomes U+FFFD.

A sequence is followed byte by byte, and for each byte the range is known in which the sequence can
still be completed. Where a byte falls outside it, the bytes read so far are one fault, and that
byte starts afresh. So a fault is as long as it can be and still begin some sequence.

A buffer that takes UTF-8 bytes is told which decoder to use. This one obeys the rule that it relies on. -/
namespace UnicodeInput.Codec.Lossy

/-- A sequence that has begun and is not complete. -/
structure Open where
  value : Nat
  /-- How many bytes are missing after the next one. -/
  missing : Nat
  /-- The least and the greatest byte that can come next. -/
  least : UInt8
  greatest : UInt8
  deriving DecidableEq, Repr

/-- What a byte outside any sequence does: it is a character, it opens a sequence, or neither. The
second byte is bounded so that the value is no shorter form's, no surrogate's, and in the
codespace. -/
def start (byte : UInt8) : List Char × Option Open :=
  let n := byte.toNat
  if byte ≤ 0x7F then ([Char.ofNat n], none)
  else if byte < 0xC2 then ([Codespace.replacement], none)
  else if byte ≤ 0xDF then ([], some ⟨n - 0xC0, 0, 0x80, 0xBF⟩)
  else if byte = 0xE0 then ([], some ⟨0x0, 1, 0xA0, 0xBF⟩)
  else if byte = 0xED then ([], some ⟨0xD, 1, 0x80, 0x9F⟩)
  else if byte ≤ 0xEF then ([], some ⟨n - 0xE0, 1, 0x80, 0xBF⟩)
  else if byte = 0xF0 then ([], some ⟨0x0, 2, 0x90, 0xBF⟩)
  else if byte ≤ 0xF3 then ([], some ⟨n - 0xF0, 2, 0x80, 0xBF⟩)
  else if byte = 0xF4 then ([], some ⟨0x4, 2, 0x80, 0x8F⟩)
  else ([Codespace.replacement], none)

/-- What a byte does behind an open sequence, if one is open. -/
def step : Option Open → UInt8 → List Char × Option Open
  | none, byte => start byte
  | some seq, byte =>
    if seq.least ≤ byte ∧ byte ≤ seq.greatest then
      let value := seq.value * 0x40 + (byte.toNat - 0x80)
      match seq.missing with
      | 0 => ([Char.ofNat value], none)
      | missing + 1 => ([], some ⟨value, missing, 0x80, 0xBF⟩)
    else
      let (scalars, seq) := start byte
      (Codespace.replacement :: scalars, seq)

/-- Decodes what follows an open sequence. One that the end cuts short is a fault too. -/
def decodeFrom : Option Open → List UInt8 → List Char
  | none, [] => []
  | some _, [] => [Codespace.replacement]
  | seq, byte :: rest =>
    let (scalars, seq) := step seq byte
    scalars ++ decodeFrom seq rest

/-- The text that `bytes` spell, with U+FFFD for each fault. -/
def decode (bytes : List UInt8) : List Char := decodeFrom none bytes

end UnicodeInput.Codec.Lossy
