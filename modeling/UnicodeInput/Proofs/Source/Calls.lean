import UnicodeInput.Source

/-! Calls on a source as data, so that whole runs of them can be spoken of, whatever the source. A run is
judged by its answers alone: a ledger of them tells the bytes that came for the first time from those
that had been given back. -/
namespace UnicodeInput.ByteSource

inductive Call where
  | hasNext
  | read
  | unread (byte : UInt8)
  | position
  deriving DecidableEq, Repr

inductive Answer where
  | more (answer : Bool)
  | byte (value : UInt8)
  /-- There was no byte to read. -/
  | noByte (error : SourceError)
  /-- The byte was taken back. -/
  | taken (byte : UInt8)
  /-- The byte was not taken back. -/
  | notTaken (error : SourceError)
  | offset (offset : Nat)
  deriving DecidableEq, Repr

section Runs

variable {σ : Type} [ByteSource σ]

def call : Call → σ → Answer × σ
  | .hasNext, source =>
    let (answer, source) := hasNext source
    (.more answer, source)
  | .read, source =>
    match read source with
    | .ok byte source => (.byte byte, source)
    | .error e source => (.noByte e, source)
  | .unread byte, source =>
    match unread byte source with
    | .ok () source => (.taken byte, source)
    | .error e source => (.notTaken e, source)
  | .position, source => (.offset (position source), source)

def run : List Call → σ → List Answer × σ
  | [], source => ([], source)
  | first :: calls, source =>
    let (answer, source) := call first source
    let (answers, source) := run calls source
    (answer :: answers, source)

variable {source after : σ} {answer : Bool} {byte : UInt8} {e : SourceError}

theorem call_hasNext (h : hasNext source = (answer, after)) :
    call .hasNext source = (.more answer, after) := by
  rw [call, h]

theorem call_read_of_ok (h : read source = .ok byte after) :
    call .read source = (.byte byte, after) := by
  rw [call, h]

theorem call_read_of_error (h : read source = .error e after) :
    call .read source = (.noByte e, after) := by
  rw [call, h]

theorem call_unread_of_ok (h : unread byte source = .ok () after) :
    call (.unread byte) source = (.taken byte, after) := by
  rw [call, h]

theorem call_unread_of_error (h : unread byte source = .error e after) :
    call (.unread byte) source = (.notTaken e, after) := by
  rw [call, h]

end Runs

/-! ## What the answers tell -/

/-- What is known from the answers so far. -/
structure Ledger where
  /-- The bytes read, without those that had been given back. -/
  arrived : List UInt8 := []
  /-- The byte that was given back and has not been read again. -/
  owed : Option UInt8 := none
  /-- Whether the last answer, offsets aside, was that there is more, and no byte given back is why. -/
  ahead : Bool := false
  /-- The answers to the reads that got no byte. -/
  refusals : List SourceError := []
  deriving DecidableEq, Repr

namespace Ledger

def add (ledger : Ledger) : Answer → Ledger
  | .more answer => { ledger with ahead := answer && ledger.owed.isNone }
  | .byte value =>
    { ledger with
      arrived := if ledger.owed.isSome then ledger.arrived else ledger.arrived ++ [value]
      owed := none
      ahead := false }
  | .noByte e => { ledger with ahead := false, refusals := ledger.refusals ++ [e] }
  | .taken byte => { ledger with owed := some byte, ahead := false }
  | .notTaken _ | .offset _ => ledger

def ofAnswers (answers : List Answer) : Ledger := answers.foldl add {}

end Ledger

end UnicodeInput.ByteSource
