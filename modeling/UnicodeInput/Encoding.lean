import UnicodeInput.ByteOrder

/-! The six transfer encodings and their byte-order marks.

UTF-8 comes in two kinds that differ in the mark alone. Every other encoding is a unit width with a
byte order. -/
namespace UnicodeInput

inductive Encoding where
  | utf8
  /-- UTF-8 behind a mark, which a reader may find missing. -/
  | utf8Bom
  | utf16 (order : ByteOrder)
  | utf32 (order : ByteOrder)
  deriving DecidableEq, Repr

namespace Encoding

def all : List Encoding :=
  [utf8, utf8Bom, utf16 .big, utf16 .little, utf32 .big, utf32 .little]

/-- The bytes written in front of the content. -/
def mark : Encoding → List UInt8
  | utf8 => []
  | utf8Bom => [0xEF, 0xBB, 0xBF]
  | utf16 .big => [0xFE, 0xFF]
  | utf16 .little => [0xFF, 0xFE]
  | utf32 .big => [0x00, 0x00, 0xFE, 0xFF]
  | utf32 .little => [0xFF, 0xFE, 0x00, 0x00]

def name : Encoding → String
  | utf8 => "UTF-8"
  | utf8Bom => "UTF-8-BOM"
  | utf16 .big => "UTF-16-BE"
  | utf16 .little => "UTF-16-LE"
  | utf32 .big => "UTF-32-BE"
  | utf32 .little => "UTF-32-LE"

/-- Whether a reader must find the mark before any content. -/
def requiresMark : Encoding → Bool
  | utf8 | utf8Bom => false
  | utf16 _ | utf32 _ => true

/-- The encodings with a mark, each ahead of those whose mark begins its own. -/
def byMark : List Encoding :=
  [utf32 .little, utf32 .big, utf8Bom, utf16 .little, utf16 .big]

/-- The encoding whose mark begins `bytes`. Of two such marks the longer one decides. -/
def detect (bytes : List UInt8) : Option Encoding :=
  byMark.find? fun encoding => encoding.mark.isPrefixOf bytes

end Encoding

end UnicodeInput
