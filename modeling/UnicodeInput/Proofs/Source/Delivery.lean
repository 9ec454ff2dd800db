import UnicodeInput.Proofs.Source.Calls
import UnicodeInput.Proofs.Source.MemoryLike

/-! What runs of calls on a source bring. `Exchange` says once what any call can do to a source that comes
down to bytes in memory. From it the ledger of the answers fits the source after every run: what has
arrived, what is held and what is still to come are all of the bytes, each once. A stream adds that it
never takes an event from beyond its end. -/
namespace UnicodeInput.ByteSource

/-! ## One call -/

/-- From bytes in memory and the failure in place of their end: an answer, and the bytes and the failure
behind it. -/
inductive Exchange (source : MemorySource) (failure : Option FailureKind) :
    Answer → MemorySource → Option FailureKind → Prop
  | more : Exchange source failure (.more (source.hasNext || failure.isSome)) source failure
  | fetch {byte : UInt8} {rest : List UInt8} : source.pending = none → source.rest = byte :: rest →
      Exchange source failure (.more true)
        { rest, offset := source.offset + 1, pending := some byte } failure
  | again {byte : UInt8} : source.pending = some byte →
      Exchange source failure (.byte byte) { source with pending := none } failure
  | fresh {byte : UInt8} {rest : List UInt8} : source.pending = none → source.rest = byte :: rest →
      Exchange source failure (.byte byte)
        { rest, offset := source.offset + 1, pending := none } failure
  | noByte : source.pending = none → source.rest = [] →
      Exchange source failure (.noByte (.atEnd failure source.offset)) source none
  | taken (byte : UInt8) : source.pending = none →
      Exchange source failure (.taken byte) { source with pending := some byte } failure
  | notTaken {byte : UInt8} : source.pending = some byte →
      Exchange source failure (.notTaken (.pushbackTaken source.position)) source failure
  | offset : Exchange source failure (.offset source.position) source failure

section Calls

open MemoryLike

variable {σ : Type} [ByteSource σ] [MemoryLike σ]

theorem exchange_hasNext (source : σ) :
    Exchange (memory source) (failure source) (call .hasNext source).1
      (memory (call .hasNext source).2) (failure (call .hasNext source).2) := by
  simp only [call, MemoryLike.hasNext_eq, failure_hasNext]
  rcases memory_hasNext source with same | fetched
  · rw [same]
    exact .more
  · rw [fetched, MemorySource.fetched]
    split
    next byte rest free ahead =>
      have more : (memory source).hasNext = true := by simp [MemorySource.hasNext, ahead]
      rw [more, Bool.true_or, MemorySource.skip, ahead]
      exact .fetch free ahead
    next => exact .more

theorem exchange_read (source : σ) :
    Exchange (memory source) (failure source) (call .read source).1
      (memory (call .read source).2) (failure (call .read source).2) := by
  have reads := MemoryLike.read_eq source
  cases held : (memory source).pending with
  | some byte =>
    simp only [MemorySource.read, held] at reads
    obtain ⟨after, reads, same, fails⟩ := reads
    rw [call_read_of_ok reads, same, fails]
    exact .again held
  | none =>
    cases ahead : (memory source).rest with
    | cons byte rest =>
      simp only [MemorySource.read, held, ahead] at reads
      obtain ⟨after, reads, moved, fails⟩ := reads
      rw [call_read_of_ok reads, moved, fails]
      exact .fresh held ahead
    | nil =>
      simp only [MemorySource.read, held, ahead] at reads
      obtain ⟨after, reads, same, fails⟩ := reads
      rw [call_read_of_error reads, same, fails]
      exact .noByte held ahead

theorem exchange_unread (byte : UInt8) (source : σ) :
    Exchange (memory source) (failure source) (call (.unread byte) source).1
      (memory (call (.unread byte) source).2) (failure (call (.unread byte) source).2) := by
  have unreads := MemoryLike.unread_eq byte source
  cases held : (memory source).pending with
  | some _ =>
    simp only [MemorySource.unread, held] at unreads
    rw [call_unread_of_error unreads]
    exact .notTaken held
  | none =>
    simp only [MemorySource.unread, held] at unreads
    obtain ⟨after, unreads, same, fails⟩ := unreads
    rw [call_unread_of_ok unreads, same, fails]
    exact .taken byte held

/-- Every call on a source that comes down to bytes in memory is one of the exchanges. -/
theorem exchange_call (asked : Call) (source : σ) :
    Exchange (memory source) (failure source) (call asked source).1
      (memory (call asked source).2) (failure (call asked source).2) := by
  cases asked with
  | hasNext => exact exchange_hasNext source
  | read => exact exchange_read source
  | unread byte => exact exchange_unread byte source
  | position =>
    simp only [call, MemoryLike.position_eq]
    exact .offset

end Calls

theorem Exchange.of_noByte {source after : MemorySource} {failure rest : Option FailureKind}
    {e : SourceError} (exchange : Exchange source failure (.noByte e) after rest) :
    source.pending = none ∧ source.rest = [] ∧ e = .atEnd failure source.offset := by
  cases exchange with
  | noByte free follows => exact ⟨free, follows, rfl⟩

/-! ## The ledger and the source -/

namespace Ledger

variable {bytes : List UInt8} {ending : Option FailureKind} {ledger : Ledger}

/-- The ledger of a run on a source of `bytes`, against the bytes in memory that the source has come down
to. A byte is in one of three places: it has arrived, it is held, or it is still to come. -/
structure Fits (bytes : List UInt8) (ending : Option FailureKind) (ledger : Ledger)
    (source : MemorySource) (failure : Option FailureKind) : Prop where
  owed : ∀ byte, ledger.owed = some byte → source.pending = some byte
  free : ledger.owed = none → ledger.ahead = false → source.pending = none
  ahead : ledger.ahead = true → ledger.owed = none ∧ (source.hasNext || failure.isSome) = true
  arrived : ledger.arrived ++ (if ledger.owed.isSome then [] else source.pending.toList) ++
    source.rest = bytes
  offset : source.offset + source.rest.length = bytes.length
  failure : failure = if ledger.refusals = [] then ending else none
  refusals : ledger.refusals = [] ∨ ∃ n, ledger.refusals =
    .atEnd ending bytes.length :: List.replicate n (.exhausted bytes.length)

variable {source after : MemorySource} {failure rest : Option FailureKind} {answer : Answer}

theorem Fits.owed_eq_none (fits : Fits bytes ending ledger source failure)
    (free : source.pending = none) : ledger.owed = none := by
  cases owed : ledger.owed with
  | none => rfl
  | some byte =>
    rw [fits.owed byte owed] at free
    cases free

theorem Fits.spent (fits : Fits bytes ending ledger source failure) (free : source.pending = none)
    (none_left : source.rest = []) :
    ledger.owed = none ∧ ledger.arrived = bytes ∧ source.offset = bytes.length := by
  have owed := fits.owed_eq_none free
  have total := fits.arrived
  have place := fits.offset
  rw [owed, free, none_left] at total
  rw [none_left] at place
  exact ⟨owed, by simpa using total, place⟩

theorem fits_start (bytes : List UInt8) (ending : Option FailureKind) :
    Fits bytes ending {} (MemorySource.ofBytes bytes) ending where
  owed _ owed := by cases owed
  free _ _ := rfl
  ahead ahead := by cases ahead
  arrived := rfl
  offset := Nat.zero_add _
  failure := rfl
  refusals := .inl rfl

/-- Whatever a call does, the ledger fits again once its answer is entered. -/
theorem Fits.add (fits : Fits bytes ending ledger source failure)
    (exchange : Exchange source failure answer after rest) :
    Fits bytes ending (ledger.add answer) after rest := by
  have total := fits.arrived
  have place := fits.offset
  cases exchange with
  | offset => exact fits
  | notTaken held => exact fits
  | more =>
    refine { fits with free := ?_, ahead := ?_ }
    · intro owed nothing
      change ledger.owed = none at owed
      simp only [Ledger.add, owed, Option.isNone_none, Bool.and_true, MemorySource.hasNext,
        Bool.or_eq_false_iff, Option.isSome_eq_false_iff, Option.isNone_iff_eq_none] at nothing
      exact nothing.1.1
    · intro something
      simp [Ledger.add] at something
      exact ⟨something.2, by simpa using something.1⟩
  | fetch free follows =>
    have owed := fits.owed_eq_none free
    rw [free, follows, owed] at total
    rw [follows, List.length_cons] at place
    refine { fits with
      owed := ?_, free := ?_, ahead := fun _ => ⟨owed, rfl⟩, arrived := ?_, offset := ?_ }
    · intro byte held
      rw [Ledger.add, owed] at held
      cases held
    · intro _ nothing
      simp [Ledger.add, owed] at nothing
    · simpa [Ledger.add, owed] using total
    · rw [← place, Nat.add_assoc, Nat.add_comm 1]
  | again held =>
    rw [held] at total
    refine { fits with
      owed := fun _ held => (by cases held), free := fun _ _ => rfl
      ahead := fun ahead => absurd ahead Bool.false_ne_true, arrived := ?_ }
    cases owed : ledger.owed <;> simpa [Ledger.add, owed] using total
  | fresh free follows =>
    have owed := fits.owed_eq_none free
    rw [free, follows, owed] at total
    rw [follows, List.length_cons] at place
    refine { fits with
      owed := fun _ held => (by cases held), free := fun _ _ => rfl
      ahead := fun ahead => absurd ahead Bool.false_ne_true, arrived := ?_, offset := ?_ }
    · simpa [Ledger.add, owed] using total
    · rw [← place, Nat.add_assoc, Nat.add_comm 1]
  | taken byte free =>
    have owed := fits.owed_eq_none free
    rw [free, owed] at total
    refine { fits with
      owed := fun _ owed => owed, free := fun owed => (by cases owed)
      ahead := fun ahead => absurd ahead Bool.false_ne_true, arrived := ?_ }
    simpa [Ledger.add] using total
  | noByte free none_left =>
    obtain ⟨-, -, finish⟩ := fits.spent free none_left
    refine { fits with
      free := fun _ _ => free, ahead := fun ahead => absurd ahead Bool.false_ne_true
      failure := ?_, refusals := ?_ }
    · simp [Ledger.add]
    · right
      have failing := fits.failure
      rcases fits.refusals with none_yet | ⟨n, refused⟩
      · rw [if_pos none_yet] at failing
        exact ⟨0, by simp [Ledger.add, none_yet, failing, finish]⟩
      · rw [if_neg (by simp [refused])] at failing
        refine ⟨n + 1, ?_⟩
        simp [Ledger.add, refused, failing, finish, SourceError.atEnd, List.replicate_succ']

theorem Fits.run {σ : Type} [ByteSource σ] [MemoryLike σ] {source : σ}
    (fits : Fits bytes ending ledger (MemoryLike.memory source) (MemoryLike.failure source))
    (calls : List Call) :
    Fits bytes ending ((run calls source).1.foldl Ledger.add ledger)
      (MemoryLike.memory (run calls source).2) (MemoryLike.failure (run calls source).2) := by
  induction calls generalizing ledger source with
  | nil => exact fits
  | cons first calls ih => exact ih (fits.add (exchange_call first source))

end Ledger

/-! ## Streams -/

/-- The ledger of any run on a stream fits the bytes ahead of it. -/
theorem fits_stream_run (events : List StreamEvent) (calls : List Call) :
    Ledger.Fits (StreamSource.bytesAhead events) (StreamSource.failure? events)
      (.ofAnswers (run calls (StreamSource.ofEvents events)).1)
      (run calls (StreamSource.ofEvents events)).2.memory
      (run calls (StreamSource.ofEvents events)).2.failure :=
  (Ledger.fits_start ..).run calls

theorem beyond_call (asked : Call) (source : StreamSource) :
    (call asked source).2.beyond = source.beyond := by
  cases asked with
  | hasNext =>
    obtain ⟨after, asked, -, -, leaves⟩ := source.hasNext_eq
    exact (congrArg (·.2.beyond) asked).trans leaves
  | read =>
    have reads := source.read_eq
    cases h : source.memory.read with
    | ok byte behind =>
      rw [h] at reads
      obtain ⟨after, reads, -, -, leaves⟩ := reads
      rw [call_read_of_ok reads, leaves]
    | error e behind =>
      rw [h] at reads
      obtain ⟨after, reads, -, -, leaves⟩ := reads
      rw [call_read_of_error reads, leaves]
  | unread byte =>
    have unreads := source.unread_eq byte
    cases h : source.memory.unread byte with
    | ok _ behind =>
      rw [h] at unreads
      obtain ⟨after, unreads, -, -, leaves⟩ := unreads
      rw [call_unread_of_ok unreads, leaves]
    | error e behind =>
      rw [h] at unreads
      rw [call_unread_of_error unreads]
  | position => rfl

theorem beyond_run (calls : List Call) (source : StreamSource) :
    (run calls source).2.beyond = source.beyond := by
  induction calls generalizing source with
  | nil => rfl
  | cons first calls ih => exact (ih _).trans (beyond_call first source)

/-- The events beyond the end of a stream are still there after any run on it. -/
theorem eventsBeyond_suffix_run (events : List StreamEvent) (calls : List Call) :
    StreamSource.eventsBeyond events <:+ (run calls (StreamSource.ofEvents events)).2.events := by
  have kept : (run calls (StreamSource.ofEvents events)).2.beyond = StreamSource.eventsBeyond events :=
    beyond_run calls _
  rw [← kept, StreamSource.beyond]
  split
  · exact StreamSource.eventsBeyond_suffix _
  · exact List.suffix_rfl

/-- After any run on a stream the bytes that have arrived are the first of those ahead of its end, in
order, and no event beyond the end has been taken. Of the reads that got no byte the first reports how
the stream ends and the others that it is exhausted, all at the end. The next read gives the byte that
is owed, and gets none only if nothing is owed and everything has arrived. -/
theorem stream_run_delivers (events : List StreamEvent) (calls : List Call) :
    let bytes := StreamSource.bytesAhead events
    let source := (run calls (StreamSource.ofEvents events)).2
    let ledger := Ledger.ofAnswers (run calls (StreamSource.ofEvents events)).1
    ledger.arrived <+: bytes ∧
    StreamSource.eventsBeyond events <:+ source.events ∧
    (ledger.refusals = [] ∨ ∃ n, ledger.refusals =
      .atEnd (StreamSource.failure? events) bytes.length ::
        List.replicate n (.exhausted bytes.length)) ∧
    (∀ byte, ledger.owed = some byte → (call .read source).1 = .byte byte) ∧
    ∀ e, (call .read source).1 = .noByte e →
      ledger.owed = none ∧ ledger.arrived = bytes ∧
      e = .atEnd (if ledger.refusals = [] then StreamSource.failure? events else none)
        bytes.length := by
  intro bytes source ledger
  have fits := fits_stream_run events calls
  refine ⟨?_, eventsBeyond_suffix_run events calls, fits.refusals, ?_, ?_⟩
  · have total := fits.arrived
    rw [List.append_assoc] at total
    exact ⟨_, total⟩
  · intro byte owed
    have reads := source.read_eq
    rw [MemorySource.read, fits.owed byte owed] at reads
    obtain ⟨after, reads, -⟩ := reads
    rw [call_read_of_ok reads]
  · intro e refused
    have exchange := exchange_read source
    rw [refused] at exchange
    obtain ⟨free, none_left, rfl⟩ := exchange.of_noByte
    obtain ⟨owed, arrived, finish⟩ := fits.spent free none_left
    exact ⟨owed, arrived, congr (congrArg SourceError.atEnd fits.failure) finish⟩

end UnicodeInput.ByteSource
