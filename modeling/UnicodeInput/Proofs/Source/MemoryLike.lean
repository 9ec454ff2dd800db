import UnicodeInput.Source.Memory
import UnicodeInput.Source.Stream

/-! Sources that come down to bytes in memory. A stream is, to whoever reads it, the bytes in memory that
it will deliver, with a failure in place of the end if it has one. What `MemoryLike` says of a source is
all that its readers can learn of it, and nothing in it speaks of events, interruptions or statuses. -/
namespace UnicodeInput

/-- Why there is no byte where the bytes end: the failure there, or else the end itself. -/
def SourceError.atEnd (failure : Option FailureKind) (offset : Nat) : SourceError :=
  match failure with
  | some kind => .failure offset kind
  | none => .exhausted offset

namespace MemorySource

/-- The source with its next byte fetched into the place for a byte given back, if that is free. -/
def fetched (source : MemorySource) : MemorySource :=
  match source.pending, source.rest with
  | none, byte :: _ => { source.skip 1 with pending := some byte }
  | _, _ => source

variable (source : MemorySource)

theorem fetched_of_pending (held : source.pending.isSome = true) : source.fetched = source := by
  obtain ⟨byte, held⟩ := Option.isSome_iff_exists.mp held
  simp [fetched, held]

theorem fetched_of_nil (ended : source.rest = []) : source.fetched = source := by
  simp [fetched, ended]

@[simp] theorem fetched_fetched : source.fetched.fetched = source.fetched := by
  obtain ⟨rest, offset, pending⟩ := source
  cases pending <;> cases rest <;> rfl

@[simp] theorem hasNext_fetched : source.fetched.hasNext = source.hasNext := by
  obtain ⟨rest, offset, pending⟩ := source
  cases pending <;> cases rest <;> rfl

@[simp] theorem position_fetched : source.fetched.position = source.position := by
  obtain ⟨rest, offset, pending⟩ := source
  cases pending <;> cases rest <;> rfl

@[simp] theorem deliverable_fetched : source.fetched.deliverable = source.deliverable := by
  obtain ⟨rest, offset, pending⟩ := source
  cases pending <;> cases rest
  · rfl
  · simp [fetched, deliverable, skip, Nat.add_comm]
  all_goals rfl

/-- Fetched ahead, the next byte is held. -/
theorem pending_fetched (more : source.hasNext = true) : source.fetched.pending.isSome = true := by
  obtain ⟨rest, offset, pending⟩ := source
  cases pending <;> cases rest
  · cases more
  all_goals rfl

@[simp] theorem read_fetched : source.fetched.read = source.read := by
  obtain ⟨rest, offset, pending⟩ := source
  cases pending <;> cases rest <;> rfl

variable {source} {after : MemorySource}

theorem pending_of_read {byte : UInt8} (read : source.read = .ok byte after) :
    after.pending = none := by
  obtain ⟨rest, offset, pending⟩ := source
  cases pending with
  | some _ =>
    cases read
    rfl
  | none =>
    cases rest with
    | nil => cases read
    | cons _ _ =>
      cases read
      rfl

theorem of_read_error {e : SourceError} (refused : source.read = .error e after) :
    source.pending = none ∧ source.rest = [] ∧ e = .exhausted source.offset ∧ after = source := by
  obtain ⟨rest, offset, pending⟩ := source
  cases pending with
  | some _ => cases refused
  | none =>
    cases rest with
    | nil =>
      cases refused
      exact ⟨rfl, rfl, rfl, rfl⟩
    | cons _ _ => cases refused

end MemorySource

/-- A source that stands for bytes in memory, which end in a failure or just end. Whether it fetches a
byte ahead when asked for more is its own business. -/
class MemoryLike (σ : Type) [ByteSource σ] where
  memory : σ → MemorySource
  /-- The failure that has not been reported. -/
  failure : σ → Option FailureKind
  position_eq (source : σ) : ByteSource.position source = (memory source).position
  deliverable_eq (source : σ) : ByteSource.deliverable source = (memory source).deliverable
  hasNext_eq (source : σ) :
    (ByteSource.hasNext source).1 = ((memory source).hasNext || (failure source).isSome)
  memory_hasNext (source : σ) :
    memory (ByteSource.hasNext source).2 = memory source ∨
      memory (ByteSource.hasNext source).2 = (memory source).fetched
  failure_hasNext (source : σ) : failure (ByteSource.hasNext source).2 = failure source
  /-- Once there is no more, asking again changes nothing. -/
  hasNext_hasNext (source : σ) : (ByteSource.hasNext source).1 = false →
    ByteSource.hasNext (ByteSource.hasNext source).2 = (false, (ByteSource.hasNext source).2)
  read_eq (source : σ) :
    match (memory source).read with
    | .ok byte behind =>
      ∃ after, ByteSource.read source = .ok byte after ∧ memory after = behind ∧
        failure after = failure source
    | .error _ _ =>
      ∃ after, ByteSource.read source =
        .error (.atEnd (failure source) (memory source).offset) after ∧
        memory after = memory source ∧ failure after = none
  unread_eq (byte : UInt8) (source : σ) :
    match (memory source).unread byte with
    | .ok _ behind =>
      ∃ after, ByteSource.unread byte source = .ok () after ∧ memory after = behind ∧
        failure after = failure source
    | .error e _ => ByteSource.unread byte source = .error e source

/-! ## Bytes in memory -/

namespace MemorySource

instance : MemoryLike MemorySource where
  memory source := source
  failure _ := none
  position_eq _ := rfl
  deliverable_eq _ := rfl
  hasNext_eq source := (Bool.or_false source.hasNext).symm
  memory_hasNext _ := .inl rfl
  failure_hasNext _ := rfl
  hasNext_hasNext _ done := congrArg (·, _) done
  read_eq source := by
    obtain ⟨rest, offset, pending⟩ := source
    cases pending with
    | some byte => exact ⟨_, rfl, rfl, rfl⟩
    | none =>
      cases rest with
      | nil => exact ⟨_, rfl, rfl, rfl⟩
      | cons byte rest => exact ⟨_, rfl, rfl, rfl⟩
  unread_eq byte source := by
    obtain ⟨rest, offset, pending⟩ := source
    cases pending with
    | some _ => rfl
    | none => exact ⟨_, rfl, rfl, rfl⟩

end MemorySource

/-! ## Streams -/

namespace StreamSource

/-- The failure that a stream ends in, unless it just ends. -/
def failure? : List StreamEvent → Option FailureKind
  | .byte _ :: rest => failure? rest
  | .interrupted :: rest => failure? rest
  | .failure kind :: _ => some kind
  | .endOfInput :: _ => none
  | [] => none

/-- The events after the first end of input or failure. -/
def eventsBeyond : List StreamEvent → List StreamEvent
  | .byte _ :: rest => eventsBeyond rest
  | .interrupted :: rest => eventsBeyond rest
  | .failure _ :: rest => rest
  | .endOfInput :: rest => rest
  | [] => []

theorem eventsBeyond_suffix (events : List StreamEvent) : eventsBeyond events <:+ events := by
  induction events with
  | nil => exact List.suffix_rfl
  | cons event events ih =>
    cases event with
    | byte _ | interrupted => exact ih.trans (List.suffix_cons ..)
    | endOfInput | failure _ => exact List.suffix_cons ..

/-- The bytes in memory that the stream stands for. -/
def memory (source : StreamSource) : MemorySource where
  rest :=
    match source.status with
    | .live => bytesAhead source.events
    | _ => []
  offset := source.offset
  pending := source.pending

def failure (source : StreamSource) : Option FailureKind :=
  match source.status with
  | .live => failure? source.events
  | .failing kind => some kind
  | .ended => none

/-- The events that are never to be taken. -/
def beyond (source : StreamSource) : List StreamEvent :=
  match source.status with
  | .live => eventsBeyond source.events
  | _ => source.events

/-- How a stream stands once there are no bytes to come. -/
def statusAtEnd : Option FailureKind → StreamStatus
  | some kind => .failing kind
  | none => .ended

/-- Taking gives the first byte to come and leaves the rest, or finds how the stream ends. -/
theorem take_eq (events : List StreamEvent) :
    match bytesAhead events with
    | byte :: bytes =>
      ∃ rest, take events = (some byte, .live, rest) ∧ bytesAhead rest = bytes ∧
        failure? rest = failure? events ∧ eventsBeyond rest = eventsBeyond events
    | [] => take events = (none, statusAtEnd (failure? events), eventsBeyond events) := by
  induction events with
  | nil => rfl
  | cons event events ih =>
    cases event with
    | byte value => exact ⟨events, rfl, rfl, rfl, rfl⟩
    | interrupted => exact ih
    | endOfInput | failure _ => rfl

/-- Fetching moves one byte of the memory, and what is to be learnt of the rest stays. -/
theorem fetch_eq (source : StreamSource) :
    match source.memory.rest with
    | byte :: _ =>
      ∃ after, source.fetch = (some byte, after) ∧ after.memory = source.memory.skip 1 ∧
        after.failure = source.failure ∧ after.beyond = source.beyond
    | [] =>
      ∃ after, source.fetch = (none, after) ∧ after.memory = source.memory ∧
        after.failure = source.failure ∧ after.beyond = source.beyond ∧
        after.status = statusAtEnd source.failure := by
  obtain ⟨events, status, offset, pending⟩ := source
  cases status with
  | failing kind => exact ⟨_, rfl, rfl, rfl, rfl, rfl⟩
  | ended => exact ⟨_, rfl, rfl, rfl, rfl, rfl⟩
  | live =>
    have taken := take_eq events
    simp only [memory, failure, beyond, fetch]
    cases ahead : bytesAhead events with
    | cons byte bytes =>
      rw [ahead] at taken
      obtain ⟨rest, taken, same, fails, leaves⟩ := taken
      rw [taken]
      exact ⟨_, rfl, by simp [MemorySource.skip, same], fails, leaves⟩
    | nil =>
      rw [ahead] at taken
      simp only at taken
      rw [taken]
      cases failure? events with
      | none => exact ⟨_, rfl, rfl, rfl, rfl, rfl⟩
      | some kind => exact ⟨_, rfl, rfl, rfl, rfl, rfl⟩

variable (source : StreamSource)

theorem memory_pending : source.memory.pending = source.pending := rfl

theorem hasNext_of_ended (free : source.pending = none) (ended : source.status = .ended) :
    source.hasNext = (false, source) := by
  simp [hasNext, fetch, free, ended]

/-- A stream always fetches ahead when it is asked for more. -/
theorem hasNext_eq :
    ∃ after, source.hasNext = (source.memory.hasNext || source.failure.isSome, after) ∧
      after.memory = source.memory.fetched ∧ after.failure = source.failure ∧
      after.beyond = source.beyond := by
  have fetched := source.fetch_eq
  cases held : source.pending with
  | some byte =>
    have stays : source.memory.fetched = source.memory := by
      simp [MemorySource.fetched, memory_pending, held]
    exact ⟨source, by simp [hasNext, MemorySource.hasNext, memory_pending, held], stays.symm, rfl, rfl⟩
  | none =>
    cases ahead : source.memory.rest with
    | cons byte rest =>
      rw [ahead] at fetched
      obtain ⟨after, fetched, moved, fails, leaves⟩ := fetched
      refine ⟨{ after with pending := some byte }, ?_, ?_, fails, leaves⟩
      · simp [hasNext, MemorySource.hasNext, held, fetched, ahead]
      · simp only [MemorySource.fetched, memory_pending, held, ahead, ← moved]
        rfl
    | nil =>
      rw [ahead] at fetched
      obtain ⟨after, fetched, same, fails, leaves, status⟩ := fetched
      refine ⟨after, ?_, ?_, fails, leaves⟩
      · simp only [hasNext, MemorySource.hasNext, memory_pending, held, fetched, ahead, status]
        cases source.failure <;> rfl
      · simp [MemorySource.fetched, ahead, same]

/-- Where there is no more, the stream has ended, and asking again finds it as it is. -/
theorem hasNext_hasNext (done : source.hasNext.1 = false) :
    source.hasNext.2.hasNext = (false, source.hasNext.2) := by
  have fetched := source.fetch_eq
  cases held : source.pending with
  | some byte => simp [hasNext, held] at done
  | none =>
    cases ahead : source.memory.rest with
    | cons byte rest =>
      rw [ahead] at fetched
      obtain ⟨after, fetched, -⟩ := fetched
      simp [hasNext, held, fetched] at done
    | nil =>
      rw [ahead] at fetched
      obtain ⟨after, fetched, same, -, -, -⟩ := fetched
      simp only [hasNext, held, fetched] at done ⊢
      refine hasNext_of_ended after ?_ (by simpa using done)
      rw [← memory_pending, same, memory_pending, held]

/-- A stream reads as memory does, but for the failure that may stand at the end. -/
theorem read_eq :
    match source.memory.read with
    | .ok byte behind =>
      ∃ after, source.read = .ok byte after ∧ after.memory = behind ∧
        after.failure = source.failure ∧ after.beyond = source.beyond
    | .error _ _ =>
      ∃ after, source.read = .error (.atEnd source.failure source.offset) after ∧
        after.memory = source.memory ∧ after.failure = none ∧ after.beyond = source.beyond := by
  have fetched := source.fetch_eq
  cases held : source.pending with
  | some byte =>
    simp only [MemorySource.read, read, memory_pending, held]
    exact ⟨_, rfl, rfl, rfl, rfl⟩
  | none =>
    cases ahead : source.memory.rest with
    | cons byte rest =>
      rw [ahead] at fetched
      obtain ⟨after, fetched, moved, fails, leaves⟩ := fetched
      simp only [MemorySource.read, read, memory_pending, held, ahead, fetched]
      refine ⟨after, rfl, ?_, fails, leaves⟩
      rw [moved, MemorySource.skip, memory_pending, held, ahead]
      rfl
    | nil =>
      rw [ahead] at fetched
      obtain ⟨after, fetched, same, fails, leaves, status⟩ := fetched
      have offset : after.offset = source.offset := congrArg MemorySource.offset same
      simp only [MemorySource.read, read, memory_pending, held, ahead, fetched, status]
      cases failing : source.failure with
      | none =>
        rw [failing] at fails
        exact ⟨after, by rw [statusAtEnd, offset]; rfl, same, fails, leaves⟩
      | some kind =>
        rw [failing] at status
        refine ⟨{ after with status := .ended }, ?_, ?_, rfl, ?_⟩
        · simp only [statusAtEnd, offset, SourceError.atEnd]
        · rw [← same]
          simp only [memory, status, statusAtEnd]
        · rw [← leaves]
          simp only [beyond, status, statusAtEnd]

theorem unread_eq (byte : UInt8) :
    match source.memory.unread byte with
    | .ok _ behind =>
      ∃ after, source.unread byte = .ok () after ∧ after.memory = behind ∧
        after.failure = source.failure ∧ after.beyond = source.beyond
    | .error e _ => source.unread byte = .error e source := by
  cases held : source.pending with
  | some _ =>
    simp only [MemorySource.unread, unread, memory_pending, held]
    rfl
  | none =>
    simp only [MemorySource.unread, unread, memory_pending, held]
    exact ⟨_, rfl, rfl, rfl, rfl⟩

theorem deliverable_eq : source.deliverable = source.memory.deliverable := by
  obtain ⟨events, status, offset, pending⟩ := source
  cases status <;> rfl

instance : MemoryLike StreamSource where
  memory := memory
  failure := failure
  position_eq _ := rfl
  deliverable_eq := deliverable_eq
  hasNext_eq source := by
    obtain ⟨after, asked, -⟩ := source.hasNext_eq
    exact congrArg Prod.fst asked
  memory_hasNext source := by
    obtain ⟨after, asked, fetched, -⟩ := source.hasNext_eq
    exact .inr (congrArg (memory ·.2) asked |>.trans fetched)
  failure_hasNext source := by
    obtain ⟨after, asked, -, fails, -⟩ := source.hasNext_eq
    exact congrArg (failure ·.2) asked |>.trans fails
  hasNext_hasNext := hasNext_hasNext
  read_eq source := by
    have reads := source.read_eq
    cases h : source.memory.read with
    | ok byte behind =>
      rw [h] at reads
      obtain ⟨after, reads, same, fails, -⟩ := reads
      exact ⟨after, reads, same, fails⟩
    | error e behind =>
      rw [h] at reads
      obtain ⟨after, reads, same, fails, -⟩ := reads
      exact ⟨after, reads, same, fails⟩
  unread_eq byte source := by
    have unreads := source.unread_eq byte
    cases h : source.memory.unread byte with
    | ok _ behind =>
      rw [h] at unreads
      obtain ⟨after, unreads, same, fails, -⟩ := unreads
      exact ⟨after, unreads, same, fails⟩
    | error e behind =>
      rw [h] at unreads
      exact unreads

end StreamSource

end UnicodeInput
