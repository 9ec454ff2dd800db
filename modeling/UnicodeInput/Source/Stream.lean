import UnicodeInput.Source

/-! A stream as a source: bytes that arrive one at a time, and may fail to.

The stream is the list of its events. Interruptions are passed over. The first end of input or
failure is the last event ever taken, and a failure is reported once. -/
namespace UnicodeInput

/-- What one attempt to fetch a byte brings. -/
inductive StreamEvent where
  | byte (value : UInt8)
  | endOfInput
  | interrupted
  | failure (kind : FailureKind)
  deriving DecidableEq, Repr

/-- Whether a stream has ended, and how. -/
inductive StreamStatus where
  | live
  /-- A failure has been met and not been reported. -/
  | failing (kind : FailureKind)
  | ended
  deriving DecidableEq, Repr

structure StreamSource where
  /-- The events not taken yet. No more events means the end of input. -/
  events : List StreamEvent
  status : StreamStatus := .live
  offset : Nat := 0
  /-- The byte that was given back, or fetched ahead. -/
  pending : Option UInt8 := none
  deriving DecidableEq, Repr

namespace StreamSource

/-- Nothing is fetched before the first question. -/
def ofEvents (events : List StreamEvent) : StreamSource := { events }

/-- Takes events up to the first that is no interruption: the byte it brings if it brings one, the
state it leaves the stream in, and the events after it. -/
def take : List StreamEvent → Option UInt8 × StreamStatus × List StreamEvent
  | [] => (none, .ended, [])
  | .byte value :: rest => (some value, .live, rest)
  | .endOfInput :: rest => (none, .ended, rest)
  | .interrupted :: rest => take rest
  | .failure kind :: rest => (none, .failing kind, rest)

def fetch (source : StreamSource) : Option UInt8 × StreamSource :=
  match source.status with
  | .live =>
    let (byte, status, events) := take source.events
    (byte, { source with events, status, offset := source.offset + byte.toList.length })
  | _ => (none, source)

/-- A byte given back before the first read is at offset 0, like the first one. -/
def position (source : StreamSource) : Nat :=
  match source.pending with
  | some _ => source.offset - 1
  | none => source.offset

/-- A failure counts as more: the next read reports it. -/
def hasNext (source : StreamSource) : Bool × StreamSource :=
  match source.pending with
  | some _ => (true, source)
  | none =>
    match source.fetch with
    | (some byte, source) => (true, { source with pending := some byte })
    | (none, source) => (source.status != .ended, source)

/-- Once a failure is reported the stream has ended. -/
def read : EStateM SourceError StreamSource UInt8 := fun source =>
  match source.pending with
  | some byte => .ok byte { source with pending := none }
  | none =>
    match source.fetch with
    | (some byte, source) => .ok byte source
    | (none, source) =>
      match source.status with
      | .failing kind => .error (.failure source.offset kind) { source with status := .ended }
      | _ => .error (.exhausted source.offset) source

/-- There is room for one byte, and a byte fetched ahead takes it too. -/
def unread (byte : UInt8) : EStateM SourceError StreamSource Unit := fun source =>
  match source.pending with
  | some _ => .error (.pushbackTaken source.position) source
  | none => .ok () { source with pending := some byte }

/-- The bytes before the first end of input or failure. -/
def bytesAhead : List StreamEvent → List UInt8
  | .byte value :: rest => value :: bytesAhead rest
  | .interrupted :: rest => bytesAhead rest
  | _ => []

def deliverable (source : StreamSource) : Nat :=
  source.pending.toList.length +
    match source.status with
    | .live => (bytesAhead source.events).length
    | _ => 0

instance : ByteSource StreamSource where
  hasNext := hasNext
  read := read
  unread := unread
  position := position
  deliverable := deliverable

end StreamSource

end UnicodeInput
