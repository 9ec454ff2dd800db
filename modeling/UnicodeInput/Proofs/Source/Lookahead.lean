import UnicodeInput.Proofs.Source.Delivery

/-! A stream beside the same bytes in memory, call by call. When it is asked for more the stream fetches a
byte ahead, and keeps it in the one place that a byte given back would take. That is all there is to tell
the two apart: they answer alike as long as no byte is given back while one is fetched ahead, and there
they part. -/
namespace UnicodeInput

namespace ByteSource

variable {σ : Type} [ByteSource σ]

/-- No byte is given back while the last answer, offsets aside, was that there is more and no byte given
back was the reason. -/
def GivesBackInTime (ledger : Ledger) (source : σ) (calls : List Call) : Prop :=
  ∀ before byte after, calls = before ++ .unread byte :: after →
    ((run before source).1.foldl Ledger.add ledger).ahead = false

theorem givesBackInTime_cons {ledger : Ledger} {source : σ} {first : Call} {calls : List Call} :
    GivesBackInTime ledger source (first :: calls) ↔
      (∀ byte, first = .unread byte → ledger.ahead = false) ∧
      GivesBackInTime (ledger.add (call first source).1) (call first source).2 calls := by
  constructor
  · intro inTime
    constructor
    · intro byte given
      exact inTime [] byte calls (congrArg (· :: calls) given)
    · intro before byte after split
      exact inTime (first :: before) byte after (congrArg (first :: ·) split)
  · intro given before byte after split
    obtain ⟨now, later⟩ := given
    cases before with
    | nil => exact now byte (List.cons.inj split).1
    | cons earlier before =>
      obtain ⟨rfl, rest⟩ := List.cons.inj split
      exact later before byte after rest

/-! ## In step -/

/-- A stream in step with bytes in memory, after answers from these: it has the same bytes, the next one
fetched if the last answer asks for it. -/
structure InStep (ledger : Ledger) (stream : StreamSource) (plain : MemorySource) : Prop where
  owed : plain.pending = ledger.owed
  ahead : ledger.ahead = true → plain.pending = none ∧ plain.rest ≠ []
  memory : stream.memory = if ledger.ahead then plain.fetched else plain
  failure : stream.failure = none

namespace InStep

variable {ledger : Ledger} {stream : StreamSource} {plain : MemorySource}

theorem hasNext_memory (together : InStep ledger stream plain) :
    stream.memory.hasNext = plain.hasNext := by
  rw [together.memory]
  split <;> simp

theorem fetched_memory (together : InStep ledger stream plain) :
    stream.memory.fetched = plain.fetched := by
  rw [together.memory]
  split <;> simp

theorem position_memory (together : InStep ledger stream plain) :
    stream.memory.position = plain.position := by
  rw [together.memory]
  split <;> simp

theorem read_memory (together : InStep ledger stream plain) :
    stream.memory.read = plain.read := by
  rw [together.memory]
  split
  next => exact plain.read_fetched
  next => rfl

theorem memory_of_not_ahead (together : InStep ledger stream plain) (level : ledger.ahead = false) :
    stream.memory = plain := by
  rw [together.memory, level]
  rfl

theorem after_hasNext (together : InStep ledger stream plain) :
    (call .hasNext stream).1 = (call .hasNext plain).1 ∧
      InStep (ledger.add (call .hasNext plain).1) (call .hasNext stream).2 plain := by
  obtain ⟨after, asked, fetched, fails, -⟩ := stream.hasNext_eq
  rw [together.hasNext_memory, together.failure, Option.isSome_none, Bool.or_false] at asked
  rw [together.fetched_memory] at fetched
  rw [call_hasNext asked]
  refine ⟨rfl, together.owed, ?_, ?_, fails.trans together.failure⟩
  · intro ahead
    obtain ⟨more, nothing⟩ := Bool.and_eq_true_iff.mp ahead
    rw [← together.owed, Option.isNone_iff_eq_none] at nothing
    change plain.hasNext = true at more
    rw [MemorySource.hasNext, nothing] at more
    exact ⟨nothing, by simpa using more⟩
  · rw [fetched]
    split
    next => rfl
    next level =>
      change ¬ (plain.hasNext && ledger.owed.isNone) = true at level
      rw [← together.owed] at level
      cases held : plain.pending with
      | some byte => exact plain.fetched_of_pending (by rw [held]; rfl)
      | none => exact plain.fetched_of_nil (by simpa [MemorySource.hasNext, held] using level)

theorem after_read (together : InStep ledger stream plain) :
    (call .read stream).1 = (call .read plain).1 ∧
      InStep (ledger.add (call .read plain).1) (call .read stream).2 (call .read plain).2 := by
  have reads := stream.read_eq
  rw [together.read_memory] at reads
  cases plainly : plain.read with
  | ok byte behind =>
    rw [plainly] at reads
    obtain ⟨after, reads, same, fails, -⟩ := reads
    rw [call_read_of_ok reads, call_read_of_ok plainly]
    exact ⟨rfl, MemorySource.pending_of_read plainly, fun ahead => absurd ahead Bool.false_ne_true, same,
      fails.trans together.failure⟩
  | error e behind =>
    rw [plainly] at reads
    obtain ⟨after, reads, same, fails, -⟩ := reads
    obtain ⟨free, none_left, rfl, stays⟩ := MemorySource.of_read_error plainly
    subst behind
    have level : ledger.ahead = false := by
      rw [← Bool.not_eq_true]
      intro ahead
      exact (together.ahead ahead).2 none_left
    have level := together.memory_of_not_ahead level
    have offset : stream.offset = plain.offset := congrArg MemorySource.offset level
    rw [call_read_of_error reads, call_read_of_error plainly, together.failure, offset]
    exact ⟨rfl, together.owed, fun ahead => absurd ahead Bool.false_ne_true, same.trans level, fails⟩

theorem after_unread (together : InStep ledger stream plain) (level : ledger.ahead = false)
    (byte : UInt8) :
    (call (.unread byte) stream).1 = (call (.unread byte) plain).1 ∧
      InStep (ledger.add (call (.unread byte) plain).1) (call (.unread byte) stream).2
        (call (.unread byte) plain).2 := by
  have unreads := stream.unread_eq byte
  rw [together.memory_of_not_ahead level] at unreads
  cases held : plain.pending with
  | none =>
    have plainly : plain.unread byte = .ok () { plain with pending := some byte } := by
      rw [MemorySource.unread, held]
    rw [plainly] at unreads
    obtain ⟨after, unreads, same, fails, -⟩ := unreads
    rw [call_unread_of_ok unreads, call_unread_of_ok plainly]
    exact ⟨rfl, rfl, fun ahead => absurd ahead Bool.false_ne_true, same, fails.trans together.failure⟩
  | some _ =>
    have plainly : plain.unread byte = .error (.pushbackTaken plain.position) plain := by
      rw [MemorySource.unread, held]
    rw [plainly] at unreads
    rw [call_unread_of_error unreads, call_unread_of_error plainly]
    exact ⟨rfl, together⟩

/-- Every call but the one that gives a byte back too late is answered alike, and keeps the two in
step. -/
theorem after_call (together : InStep ledger stream plain) {asked : Call}
    (inTime : ∀ byte, asked = .unread byte → ledger.ahead = false) :
    (call asked stream).1 = (call asked plain).1 ∧
      InStep (ledger.add (call asked plain).1) (call asked stream).2 (call asked plain).2 := by
  cases asked with
  | position => exact ⟨congrArg Answer.offset together.position_memory, together⟩
  | hasNext => exact together.after_hasNext
  | read => exact together.after_read
  | unread byte => exact together.after_unread (inTime byte rfl) byte

/-- Too late, the byte is taken back by the bytes in memory and refused by the stream. -/
theorem answers_ne (together : InStep ledger stream plain) (ahead : ledger.ahead = true)
    (byte : UInt8) : (call (.unread byte) stream).1 ≠ (call (.unread byte) plain).1 := by
  obtain ⟨free, follows⟩ := together.ahead ahead
  have plainly : plain.unread byte = .ok () { plain with pending := some byte } := by
    rw [MemorySource.unread, free]
  have held : stream.memory.pending.isSome = true := by
    rw [together.memory, if_pos ahead]
    exact plain.pending_fetched (by simp [MemorySource.hasNext, follows])
  obtain ⟨_, held⟩ := Option.isSome_iff_exists.mp held
  have unreads := stream.unread_eq byte
  rw [MemorySource.unread, held] at unreads
  rw [call_unread_of_error unreads, call_unread_of_ok plainly]
  intro same
  cases same

/-- A whole run is answered alike exactly if no byte in it is given back too late. -/
theorem answers_eq_iff (together : InStep ledger stream plain) (calls : List Call) :
    (run calls stream).1 = (run calls plain).1 ↔ GivesBackInTime ledger plain calls := by
  induction calls generalizing ledger stream plain with
  | nil => simp [run, GivesBackInTime]
  | cons first calls ih =>
    rw [givesBackInTime_cons]
    simp only [run, List.cons.injEq]
    by_cases inTime : ∀ byte, first = .unread byte → ledger.ahead = false
    · obtain ⟨same, together⟩ := together.after_call inTime
      rw [ih together]
      exact and_congr_left' ⟨fun _ => inTime, fun _ => same⟩
    · have differ : (call first stream).1 ≠ (call first plain).1 := by
        obtain ⟨byte, rfl, ahead⟩ : ∃ byte, first = .unread byte ∧ ¬ ledger.ahead = false := by
          simpa using inTime
        exact together.answers_ne (by simpa using ahead) byte
      exact iff_of_false (fun same => differ same.1) (fun given => inTime given.1)

end InStep

theorem inStep_start {events : List StreamEvent} (ended : StreamSource.failure? events = none) :
    InStep {} (StreamSource.ofEvents events) (.ofBytes (StreamSource.bytesAhead events)) :=
  ⟨rfl, fun ahead => absurd ahead Bool.false_ne_true, rfl, ended⟩

/-! A stream has always fetched what it has said to have. -/

theorem fetched_call {ledger : Ledger} {stream : StreamSource}
    (fetched : ledger.ahead = true → stream.memory.fetched = stream.memory) (asked : Call) :
    (ledger.add (call asked stream).1).ahead = true →
      (call asked stream).2.memory.fetched = (call asked stream).2.memory := by
  cases asked with
  | position => exact fetched
  | hasNext =>
    obtain ⟨after, asked, same, -⟩ := stream.hasNext_eq
    rw [call_hasNext asked, same]
    exact fun _ => stream.memory.fetched_fetched
  | read =>
    cases reads : stream.read with
    | ok byte after =>
      rw [call_read_of_ok reads]
      intro ahead
      cases ahead
    | error e after =>
      rw [call_read_of_error reads]
      intro ahead
      cases ahead
  | unread byte =>
    have unreads := stream.unread_eq byte
    cases plainly : stream.memory.unread byte with
    | ok _ behind =>
      rw [plainly] at unreads
      obtain ⟨after, unreads, -⟩ := unreads
      rw [call_unread_of_ok unreads]
      intro ahead
      cases ahead
    | error e behind =>
      rw [plainly] at unreads
      rw [call_unread_of_error unreads]
      exact fetched

theorem fetched_run {ledger : Ledger} {stream : StreamSource}
    (fetched : ledger.ahead = true → stream.memory.fetched = stream.memory) (calls : List Call) :
    ((run calls stream).1.foldl Ledger.add ledger).ahead = true →
      (run calls stream).2.memory.fetched = (run calls stream).2.memory := by
  induction calls generalizing ledger stream with
  | nil => exact fetched
  | cons first calls ih => exact ih (fetched_call fetched first)

theorem notTaken_iff (byte : UInt8) (stream : StreamSource) :
    (∃ e, (call (.unread byte) stream).1 = .notTaken e) ↔ stream.memory.pending.isSome = true := by
  have unreads := stream.unread_eq byte
  cases held : stream.memory.pending with
  | none =>
    rw [MemorySource.unread, held] at unreads
    obtain ⟨after, unreads, -⟩ := unreads
    rw [call_unread_of_ok unreads]
    simp
  | some _ =>
    rw [MemorySource.unread, held] at unreads
    rw [call_unread_of_error unreads]
    simp

/-- A stream that just ends answers a run of calls as the same bytes in memory do, exactly if no byte is
given back while one is fetched ahead. It refuses a byte where one is owed, and there as well. -/
theorem stream_answers_eq_iff (events : List StreamEvent)
    (ended : StreamSource.failure? events = none) (calls : List Call) :
    let plain := MemorySource.ofBytes (StreamSource.bytesAhead events)
    let stream := StreamSource.ofEvents events
    ((run calls stream).1 = (run calls plain).1 ↔ GivesBackInTime {} plain calls) ∧
    ∀ byte, (∃ e, (call (.unread byte) (run calls stream).2).1 = .notTaken e) ↔
      (Ledger.ofAnswers (run calls stream).1).owed.isSome = true ∨
        (Ledger.ofAnswers (run calls stream).1).ahead = true := by
  intro plain stream
  refine ⟨(inStep_start ended).answers_eq_iff calls, fun byte => ?_⟩
  have fits := fits_stream_run events calls
  rw [notTaken_iff]
  constructor
  · intro held
    by_cases owed : (Ledger.ofAnswers (run calls stream).1).owed = none
    · right
      rw [← Bool.not_eq_false]
      intro level
      rw [fits.free owed level] at held
      cases held
    · exact .inl (Option.isSome_iff_ne_none.mpr owed)
  · intro given
    rcases given with owed | ahead
    · obtain ⟨_, owed⟩ := Option.isSome_iff_exists.mp owed
      rw [fits.owed _ owed]
      rfl
    · have more := (fits.ahead ahead).2
      rw [fits.failure, ended, ite_self, Option.isSome_none, Bool.or_false] at more
      have level : ({} : Ledger).ahead = true → stream.memory.fetched = stream.memory := by
        intro ahead
        cases ahead
      rw [← fetched_run level calls ahead]
      exact MemorySource.pending_fetched _ more

/-- One byte, with interruptions: it is given back after it has been read, and the question for more
comes before it is read again. -/
theorem givesBackInTime_reread :
    StreamSource.failure? [.interrupted, .byte 0x61, .interrupted, .endOfInput, .byte 0x62] = none ∧
    GivesBackInTime {} (MemorySource.ofBytes [0x61])
      [.hasNext, .position, .read, .unread 0x7A, .hasNext, .unread 0x61, .read, .read] :=
  ⟨rfl, (stream_answers_eq_iff [.interrupted, .byte 0x61, .interrupted, .endOfInput, .byte 0x62] rfl
    [.hasNext, .position, .read, .unread 0x7A, .hasNext, .unread 0x61, .read, .read]).1.mp
    (by decide)⟩

/-- A byte given back while one is fetched ahead. -/
theorem not_forall_stream_answers :
    ¬ ∀ (events : List StreamEvent) (calls : List Call), StreamSource.failure? events = none →
      (run calls (StreamSource.ofEvents events)).1 =
        (run calls (MemorySource.ofBytes (StreamSource.bytesAhead events))).1 := by
  intro alike
  exact absurd (alike [.byte 0x61] [.hasNext, .unread 0x62] rfl) (by decide)

end ByteSource

end UnicodeInput
