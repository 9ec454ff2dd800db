import UnicodeInput.TextBuffer
import UnicodeInput.Word

/-! The storage that a text buffer is kept in.

Room is made before scalar values are added, for as many as there may be, in whole steps of the buffer's
growth. Storage that would be too great is not had, and then the call that needs it does not return. -/
namespace UnicodeInput.TextBuffer

/-- The least number of scalar values that no storage has room for. Storage has at most half as many bytes
as there are words, and a scalar value takes four. -/
def storageLimit : Nat := Word.limit / 2 / 4

/-- A buffer and the number of scalar values that it can hold before it grows. -/
structure Stored where
  buffer : TextBuffer
  room : Nat
  size_le_room : buffer.size ≤ room
  room_lt_limit : room < storageLimit

/-- The room after growing by whole steps until there is what is needed. No sum or product exceeds the
greatest word. -/
def grown (growth room needed : Nat) : Nat :=
  let steps := (needed - room + growth - 1) / growth
  Word.saturate (room + Word.saturate (steps * growth))

namespace Stored

/-- A buffer in storage of its own. -/
def ofRoom? (room : Nat) (buffer : TextBuffer) : Option Stored :=
  if fits : buffer.size ≤ room ∧ room < storageLimit then some ⟨buffer, room, fits.1, fits.2⟩ else none

/-! ## Making buffers -/

def empty : Stored := ⟨TextBuffer.empty, defaultGrowth, by decide, by decide⟩

def withCapacity (capacity : Nat) : Except SizeError (Option Stored) :=
  ofRoom? capacity <$> TextBuffer.withCapacity capacity

/-- The given scalar values, in storage with room for these alone. -/
def ofScalars (scalars : List Char) (growth : Nat) : Except SizeError (Option Stored) :=
  ofRoom? scalars.length <$> TextBuffer.ofScalars scalars growth

/-! ## Adding -/

variable (stored : Stored)

def reserve (more : Nat) : Option Stored :=
  let needed := Word.saturate (stored.buffer.size + more)
  if needed ≤ stored.room then some stored
  else ofRoom? (grown stored.buffer.growth stored.room needed) stored.buffer

/-- Adds scalar values for which room was made. Should there be more of them, storage grows to their
number. -/
def fill (scalars : List Char) : Option Stored :=
  let buffer := stored.buffer.append scalars
  ofRoom? (max stored.room buffer.size) buffer

/-- Adds scalar values after making room for `more`. -/
def put (more : Nat) (scalars : List Char) : Option Stored := do
  (← stored.reserve more).fill scalars

def push (c : Char) : Option Stored := stored.put 1 [c]

def append (scalars : List Char) : Option Stored := stored.put scalars.length scalars

/-- Adds scalar values one by one. -/
def extend (scalars : List Char) : Option Stored := scalars.foldlM push stored

/-- Adds the characters of a text. There are no more of them than bytes. -/
def appendText (text : String) : Option Stored := stored.put text.utf8ByteSize text.toList

/-- Adds what a decoder that replaces faults makes of UTF-8 bytes. It makes no more scalar values than there
are bytes. -/
def appendBytes (lossy : List UInt8 → List Char) (bytes : List UInt8) : Option Stored :=
  stored.put bytes.length (lossy bytes)

/-! ## Dropping -/

def truncate (size : Nat) : Except OutOfRange Stored :=
  match made : stored.buffer.truncate size with
  | .ok buffer =>
    .ok ⟨buffer, stored.room, Nat.le_trans (size_of_truncate made) stored.size_le_room,
      stored.room_lt_limit⟩
  | .error e => .error e

def clear : Stored :=
  ⟨stored.buffer.clear, stored.room, Nat.zero_le _, stored.room_lt_limit⟩

def drain : String × Stored := (stored.buffer.toText, stored.clear)

/-! ## Decoding into a buffer -/

/-- What `bytes` encode behind their mark, each scalar value added by itself. -/
def ofBytes (encoding : Encoding) (bytes : List UInt8) : Except DecodeError (Option Stored) :=
  (fun buffer => empty.extend buffer.toList) <$> TextBuffer.ofBytes encoding bytes

def ofSource {σ : Type} [ByteSource σ] (encoding : Encoding) :
    EStateM DecodeError σ (Option Stored) := do
  let buffer ← TextBuffer.ofSource encoding
  return empty.extend buffer.toList

end Stored

end UnicodeInput.TextBuffer
