/-! Byte sources: producers of bytes that can take one byte back.

A decoder looks one byte ahead at most, so a single place for a returned byte is enough. Reading
and unreading are `EStateM` actions: the source after a failure is part of the answer. -/
namespace UnicodeInput

/-- Why a stream could not deliver its next byte. An interrupted read is not among these, because
it is tried again. -/
inductive FailureKind where
  | notFound
  | permissionDenied
  | connectionRefused
  | connectionReset
  | hostUnreachable
  | networkUnreachable
  | connectionAborted
  | notConnected
  | addressInUse
  | addressNotAvailable
  | networkDown
  | brokenPipe
  | alreadyExists
  | wouldBlock
  | notADirectory
  | isADirectory
  | directoryNotEmpty
  | readOnlyFilesystem
  | filesystemLoop
  | staleNetworkFileHandle
  | invalidInput
  | invalidData
  | timedOut
  | writeZero
  | storageFull
  | notSeekable
  | quotaExceeded
  | fileTooLarge
  | resourceBusy
  | executableFileBusy
  | deadlock
  | crossesDevices
  | tooManyLinks
  | invalidFilename
  | argumentListTooLong
  | unsupported
  | unexpectedEnd
  | outOfMemory
  | inProgress
  | other
  | uncategorized
  deriving DecidableEq, Repr

def FailureKind.description : FailureKind → String
  | notFound => "entity not found"
  | permissionDenied => "permission denied"
  | connectionRefused => "connection refused"
  | connectionReset => "connection reset"
  | hostUnreachable => "host unreachable"
  | networkUnreachable => "network unreachable"
  | connectionAborted => "connection aborted"
  | notConnected => "not connected"
  | addressInUse => "address in use"
  | addressNotAvailable => "address not available"
  | networkDown => "network down"
  | brokenPipe => "broken pipe"
  | alreadyExists => "entity already exists"
  | wouldBlock => "operation would block"
  | notADirectory => "not a directory"
  | isADirectory => "is a directory"
  | directoryNotEmpty => "directory not empty"
  | readOnlyFilesystem => "read-only filesystem or storage medium"
  | filesystemLoop => "filesystem loop or indirection limit (e.g. symlink loop)"
  | staleNetworkFileHandle => "stale network file handle"
  | invalidInput => "invalid input parameter"
  | invalidData => "invalid data"
  | timedOut => "timed out"
  | writeZero => "write zero"
  | storageFull => "no storage space"
  | notSeekable => "seek on unseekable file"
  | quotaExceeded => "quota exceeded"
  | fileTooLarge => "file too large"
  | resourceBusy => "resource busy"
  | executableFileBusy => "executable file busy"
  | deadlock => "deadlock"
  | crossesDevices => "cross-device link or rename"
  | tooManyLinks => "too many links"
  | invalidFilename => "invalid filename"
  | argumentListTooLong => "argument list too long"
  | unsupported => "unsupported"
  | unexpectedEnd => "unexpected end of file"
  | outOfMemory => "out of memory"
  | inProgress => "in progress"
  | other => "other error"
  | uncategorized => "uncategorized error"

inductive SourceError where
  /-- Every byte has been read; the offset is one past the last. -/
  | exhausted (offset : Nat)
  /-- A byte that was given back, at this offset, has not been read again. -/
  | pushbackTaken (offset : Nat)
  /-- The byte at this offset could not be fetched. -/
  | failure (offset : Nat) (kind : FailureKind)
  deriving DecidableEq, Repr

def SourceError.message : SourceError → String
  | exhausted offset => s!"the byte source has been read completely (byte {offset})"
  | pushbackTaken offset => s!"can't unread at byte {offset}: a byte is already pending"
  | failure offset kind => s!"i/o failure at byte {offset}: {kind.description}"

/-- A producer of bytes, read once from front to back, with room for one byte given back. -/
class ByteSource (σ : Type) where
  /-- Whether a read would give a byte or report a failure. Asking may fetch a byte ahead. -/
  hasNext : σ → Bool × σ
  read : EStateM SourceError σ UInt8
  /-- Gives a byte back, so that it is the next one read. -/
  unread : UInt8 → EStateM SourceError σ Unit
  /-- The offset of the next byte to be read. -/
  position : σ → Nat
  /-- How many bytes reading can still give. This bounds every loop over a source. -/
  deliverable : σ → Nat

namespace ByteSource

variable {σ ε : Type} [ByteSource σ]

/-- Asks whether there is more, inside a run on the source. -/
def more : EStateM ε σ Bool := fun source =>
  let (answer, source) := hasNext source
  .ok answer source

def here : EStateM ε σ Nat := fun source => .ok (position source) source

end ByteSource

end UnicodeInput
