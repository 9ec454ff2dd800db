import UnicodeInput.Bounds
import UnicodeInput.Codec.Whole

/-! A buffer of scalar values, apart from the storage that it is kept in.

A U+FEFF at the front is a mark and not text: it is kept and counted, and it is left out when the
buffer is shown or encoded. Only one is left out. Two buffers are the same if their content and growth
are. Whether there is storage for what is added is asked by `TextBuffer.Stored`, where room is made first. -/
namespace UnicodeInput

/-- Scalar values in order, and the number of places by which storage for them grows at a time. -/
structure TextBuffer where
  scalars : Array Char
  growth : Nat
  growth_pos : 0 < growth
  deriving DecidableEq

namespace TextBuffer

inductive SizeError where
  | noCapacity
  | noGrowth
  deriving DecidableEq, Repr

def SizeError.message : SizeError → String
  | noCapacity => "the size of the buffer can't be 0"
  | noGrowth => "the growth size of the buffer can't be 0"

def defaultGrowth : Nat := 16

/-! ## Making buffers -/

def empty : TextBuffer := ⟨#[], defaultGrowth, by decide⟩

/-- Nothing yet. The buffer grows by as many places as it begins with. -/
def withCapacity (capacity : Nat) : Except SizeError TextBuffer :=
  if h : 0 < capacity then .ok ⟨#[], capacity, h⟩ else .error .noCapacity

def ofScalars (scalars : List Char) (growth : Nat) : Except SizeError TextBuffer :=
  if h : 0 < growth then .ok ⟨scalars.toArray, growth, h⟩ else .error .noGrowth

/-! ## Content -/

/-- How many scalar values there are, a mark included. -/
def size (buffer : TextBuffer) : Nat := buffer.scalars.size

def isEmpty (buffer : TextBuffer) : Bool := buffer.scalars.isEmpty

def toList (buffer : TextBuffer) : List Char := buffer.scalars.toList

def get (buffer : TextBuffer) (index : Nat) : Except OutOfRange Char :=
  if h : index < buffer.scalars.size then .ok buffer.scalars[index]
  else .error ⟨index, .exclusive buffer.size⟩

def withoutMark (buffer : TextBuffer) : List Char :=
  match buffer.toList with
  | [] => []
  | c :: rest => if c = Codespace.markScalar then rest else c :: rest

def toText (buffer : TextBuffer) : String := String.ofList buffer.withoutMark

/-- Writes the text behind what a sink holds, one character after the other. -/
def writeTo (buffer : TextBuffer) (sink : String) : String :=
  buffer.withoutMark.foldl String.push sink

/-- The text in an encoding, behind the mark of that encoding. -/
def encode (buffer : TextBuffer) (encoding : Encoding) : List UInt8 :=
  Codec.encode encoding buffer.withoutMark

/-! ## Changes of the content -/

def push (buffer : TextBuffer) (c : Char) : TextBuffer :=
  { buffer with scalars := buffer.scalars.push c }

def append (buffer : TextBuffer) (scalars : List Char) : TextBuffer :=
  { buffer with scalars := buffer.scalars ++ scalars }

def truncate (buffer : TextBuffer) (size : Nat) : Except OutOfRange TextBuffer :=
  if size ≤ buffer.size then .ok { buffer with scalars := buffer.scalars.take size }
  else .error ⟨size, .inclusive buffer.size⟩

theorem size_of_truncate {buffer shorter : TextBuffer} {size : Nat}
    (made : buffer.truncate size = .ok shorter) : shorter.size ≤ buffer.size := by
  unfold truncate at made
  split at made
  · obtain rfl := Except.ok.inj made
    rw [TextBuffer.size, Array.take_eq_extract, Array.size_extract]
    exact Nat.le_trans (Nat.sub_le ..) (Nat.min_le_right ..)
  · cases made

/-- Drops everything and keeps the growth. -/
def clear (buffer : TextBuffer) : TextBuffer := { buffer with scalars := #[] }

def drain (buffer : TextBuffer) : String × TextBuffer := (buffer.toText, buffer.clear)

/-! ## Decoding into a buffer -/

/-- What `bytes` encode behind their mark. -/
def ofBytes (encoding : Encoding) (bytes : List UInt8) : Except DecodeError TextBuffer :=
  Codec.foldWhole encoding bytes push empty

def ofSource {σ : Type} [ByteSource σ] (encoding : Encoding) :
    EStateM DecodeError σ TextBuffer := do
  Codec.readMark encoding
  Codec.foldScalars encoding push empty

end TextBuffer

end UnicodeInput
