import UnicodeInput.Encoding

/-! Labels: the ways to write the name of an encoding.

Dashes, underscores and the case of ASCII letters do not count. The bytes that are left are the key of
a label. A key is put together in a block of `keyRoom` bytes, so a reader gives up on a long label at
once. -/
namespace UnicodeInput.Encoding

structure UnknownLabel where
  label : String
  deriving DecidableEq, Repr

def UnknownLabel.message (e : UnknownLabel) : String :=
  "unknown encoding '" ++ e.label ++ "'"

/-- The bytes that do not count in a label: the dash and the underscore. -/
def isSeparator (byte : UInt8) : Bool := byte == 0x2D || byte == 0x5F

/-- A byte in lower case. Only the bytes of ASCII letters have two cases. -/
def lowerByte (byte : UInt8) : UInt8 :=
  if 0x41 ≤ byte ∧ byte ≤ 0x5A then byte + 0x20 else byte

def keyRoom : Nat := 16

/-- A key under way: a block of bytes, of which the first `length` are in use. -/
structure KeyBlock where
  bytes : Array UInt8 := Array.replicate keyRoom 0
  length : Nat := 0
  deriving DecidableEq, Repr

inductive KeyRefusal where
  /-- There are more bytes than the block has room for. -/
  | noRoom
  /-- An access went outside of the block. -/
  | outside
  deriving DecidableEq, Repr

namespace KeyBlock

def add (block : KeyBlock) (byte : UInt8) : Except KeyRefusal KeyBlock :=
  if isSeparator byte then .ok block
  else if block.length = block.bytes.size then .error .noRoom
  else if inside : block.length < block.bytes.size then
    .ok { bytes := block.bytes.set block.length (lowerByte byte), length := block.length + 1 }
  else .error .outside

def used (block : KeyBlock) : Except KeyRefusal (List UInt8) :=
  if block.length ≤ block.bytes.size then .ok (block.bytes.toList.take block.length)
  else .error .outside

end KeyBlock

def keyOf (label : String) : Except KeyRefusal (List UInt8) := do
  let block ← label.toByteArray.data.toList.foldlM KeyBlock.add {}
  block.used

def keys : List (String × Encoding) :=
  [("utf8", utf8), ("utf8bom", utf8Bom), ("utf16be", utf16 .big), ("utf16le", utf16 .little),
    ("utf32be", utf32 .big), ("utf32le", utf32 .little)]

def ofKey? (key : List UInt8) : Option Encoding :=
  (keys.find? fun entry => entry.1.toByteArray.data.toList == key).map (·.2)

def parse (label : String) : Except UnknownLabel Encoding :=
  match (keyOf label).toOption.bind ofKey? with
  | some encoding => .ok encoding
  | none => .error ⟨label⟩

end UnicodeInput.Encoding
