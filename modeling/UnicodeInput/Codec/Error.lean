import UnicodeInput.Encoding
import UnicodeInput.Source

/-! What can go wrong between bytes and scalar values. -/
namespace UnicodeInput

/-- `n` in base sixteen, in upper case, with `width` digits at least. -/
def hexDigits (width n : Nat) : String :=
  let digits := (Nat.toDigits 16 n).map Char.toUpper
  String.ofList (List.replicate (width - digits.length) '0' ++ digits)

/-- Why bytes could not be decoded. Each cause but the last names the encoding that was expected. -/
inductive DecodeError where
  /-- The source ended inside a sequence; the offset is that of the missing byte. -/
  | truncated (encoding : Encoding) (offset : Nat)
  /-- The sequence that starts at the offset stands for no scalar value. -/
  | malformed (encoding : Encoding) (offset : Nat)
  /-- The unit at the offset is a surrogate outside a pair. -/
  | loneSurrogate (encoding : Encoding) (offset unit : Nat)
  /-- The mark has another byte at the offset, or none. -/
  | wrongMark (encoding : Encoding) (expected : UInt8) (offset : Nat)
  /-- The source refused for another reason than its end. -/
  | source (error : SourceError)
  deriving DecidableEq, Repr

namespace DecodeError

def message : DecodeError → String
  | truncated encoding offset =>
    s!"truncated {encoding.name} sequence: the source ended at byte {offset}"
  | malformed encoding offset => s!"invalid {encoding.name} sequence at byte {offset}"
  | loneSurrogate encoding offset unit =>
    "lone or invalid surrogate 0x" ++ hexDigits 4 unit ++
      s!" in {encoding.name} at byte {offset}"
  | wrongMark encoding expected offset =>
    s!"wrong {encoding.name} BOM: expected 0x" ++ hexDigits 2 expected.toNat ++
      s!" (byte {offset})"
  | source error => error.message

end DecodeError

structure Unencodable where
  encoding : Encoding
  value : Nat
  deriving DecidableEq, Repr

def Unencodable.message (e : Unencodable) : String :=
  "0x" ++ hexDigits 1 e.value ++
    s!" is not a Unicode scalar value and can't be encoded in {e.encoding.name}"

end UnicodeInput
