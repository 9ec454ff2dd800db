import UnicodeInput.Source

/-! Bytes in memory as a source. -/
namespace UnicodeInput

/-- A source over bytes that are all there from the start. -/
structure MemorySource where
  rest : List UInt8
  /-- How many bytes have been taken from the front. -/
  offset : Nat := 0
  /-- The byte that was given back. -/
  pending : Option UInt8 := none
  deriving DecidableEq, Repr

namespace MemorySource

def ofBytes (bytes : List UInt8) : MemorySource := { rest := bytes }

def skip (n : Nat) (source : MemorySource) : MemorySource :=
  { source with rest := source.rest.drop n, offset := source.offset + n }

/-- A byte given back before the first read is at offset 0, like the first one. -/
def position (source : MemorySource) : Nat :=
  match source.pending with
  | some _ => source.offset - 1
  | none => source.offset

/-- A byte given back counts as more. -/
def hasNext (source : MemorySource) : Bool :=
  source.pending.isSome || !source.rest.isEmpty

/-- A byte given back comes first, and does not move the offset. -/
def read : EStateM SourceError MemorySource UInt8 := fun source =>
  match source.pending, source.rest with
  | some byte, _ => .ok byte { source with pending := none }
  | none, byte :: rest => .ok byte { source with rest := rest, offset := source.offset + 1 }
  | none, [] => .error (.exhausted source.offset) source

/-- There is room for one byte. It need not be the one that was read. -/
def unread (byte : UInt8) : EStateM SourceError MemorySource Unit := fun source =>
  match source.pending with
  | some _ => .error (.pushbackTaken source.position) source
  | none => .ok () { source with pending := some byte }

def deliverable (source : MemorySource) : Nat :=
  source.pending.toList.length + source.rest.length

instance : ByteSource MemorySource where
  hasNext source := (source.hasNext, source)
  read := read
  unread := unread
  position := position
  deliverable := deliverable

end MemorySource

end UnicodeInput
