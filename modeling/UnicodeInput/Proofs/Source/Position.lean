import UnicodeInput.Proofs.Source.Delivery

/-! The position of a source, counted from its answers. A byte that is read moves it forward by one and a
byte that is taken back moves it back by one; a byte fetched ahead moves nothing, since the offset and the
place it is held in change together. The count is below zero only for a byte given back in front of the
first, and the position is zero there. -/
namespace UnicodeInput

namespace MemorySource

/-- The offset of the next byte, which is -1 for a byte given back in front of the first. -/
def level (source : MemorySource) : Int := source.offset - source.pending.toList.length

variable (source : MemorySource)

theorem neg_one_le_level : -1 ≤ source.level := by
  rw [level]
  cases source.pending with
  | none => simp
  | some _ =>
    simp only [Option.toList_some, List.length_singleton]
    omega

theorem position_eq_max_level : (source.position : Int) = max 0 source.level := by
  rw [position, level]
  cases source.pending with
  | none => simp
  | some _ =>
    simp only [Option.toList_some, List.length_singleton]
    omega

theorem hasNext_of_read {source after : MemorySource} {byte : UInt8}
    (read : source.read = .ok byte after) : source.hasNext = true := by
  obtain ⟨rest, offset, pending⟩ := source
  cases pending with
  | some _ => rfl
  | none =>
    cases rest with
    | nil => cases read
    | cons _ _ => rfl

end MemorySource

namespace ByteSource

def Answer.isByte : Answer → Bool
  | .byte _ => true
  | _ => false

def Answer.isTaken : Answer → Bool
  | .taken _ => true
  | _ => false

/-- How many bytes were read and not taken back again. -/
def balance (answers : List Answer) : Int :=
  answers.countP Answer.isByte - answers.countP Answer.isTaken

theorem balance_cons (answer : Answer) (answers : List Answer) :
    balance (answer :: answers) = balance [answer] + balance answers := by
  simp only [balance, List.countP_cons, List.countP_nil]
  omega

section Calls

open MemoryLike

/-- Whatever a call does, the level moves by what its answer counts. -/
theorem Exchange.level_eq {source after : MemorySource} {failure rest : Option FailureKind}
    {answer : Answer} (exchange : Exchange source failure answer after rest) :
    after.level = source.level + balance [answer] := by
  cases exchange with
  | more | noByte _ _ | notTaken _ | offset => exact (Int.add_zero _).symm
  | fetch free _ | fresh free _ | taken _ free | again free =>
    simp [MemorySource.level, balance, Answer.isByte, Answer.isTaken, free] <;> omega

variable {σ : Type} [ByteSource σ] [MemoryLike σ]

theorem level_run (calls : List Call) (source : σ) :
    (memory (run calls source).2).level = (memory source).level + balance (run calls source).1 := by
  induction calls generalizing source with
  | nil => exact (Int.add_zero _).symm
  | cons first calls ih =>
    have moved := (exchange_call first source).level_eq
    rw [run, balance_cons, ← Int.add_assoc, ← moved]
    exact ih (call first source).2

/-! ## The next read -/

theorem read_answer (source : σ) :
    (call .read source).1 =
      match (memory source).read with
      | .ok byte _ => .byte byte
      | .error _ _ => .noByte (.atEnd (failure source) (memory source).offset) := by
  have reads := MemoryLike.read_eq source
  cases read : (memory source).read with
  | ok byte behind =>
    rw [read] at reads
    obtain ⟨after, reads, -⟩ := reads
    rw [call_read_of_ok reads]
  | error e behind =>
    rw [read] at reads
    obtain ⟨after, reads, -⟩ := reads
    rw [call_read_of_error reads]

/-- Asking for more leaves the answer to the next read as it is. -/
theorem read_answer_hasNext (source : σ) :
    (call .read (call .hasNext source).2).1 = (call .read source).1 := by
  change (call .read (hasNext source).2).1 = _
  rw [read_answer, read_answer, failure_hasNext]
  rcases memory_hasNext source with same | fetched
  · rw [same]
  · rw [fetched, MemorySource.read_fetched]
    cases read : (memory source).read with
    | ok byte behind => rfl
    | error e behind =>
      obtain ⟨-, ended, -, -⟩ := MemorySource.of_read_error read
      rw [MemorySource.fetched_of_nil _ ended]

theorem position_hasNext (source : σ) : position (call .hasNext source).2 = position source := by
  change position (hasNext source).2 = _
  rw [MemoryLike.position_eq, MemoryLike.position_eq]
  rcases memory_hasNext source with same | fetched
  · rw [same]
  · rw [fetched, MemorySource.position_fetched]

/-- There is more exactly if the next read does not find the source exhausted. -/
theorem more_iff_read_ne_exhausted (source : σ) :
    (call .hasNext source).1 = .more true ↔
      ∀ offset, (call .read (call .hasNext source).2).1 ≠ .noByte (.exhausted offset) := by
  have asked : (call .hasNext source).1 =
      .more ((memory source).hasNext || (failure source).isSome) :=
    congrArg Answer.more (MemoryLike.hasNext_eq source)
  rw [asked, read_answer_hasNext, read_answer, Answer.more.injEq]
  cases read : (memory source).read with
  | ok byte behind =>
    have more := MemorySource.hasNext_of_read read
    simp [more]
  | error e behind =>
    obtain ⟨free, ended, -, -⟩ := MemorySource.of_read_error read
    have spent : (memory source).hasNext = false := by simp [MemorySource.hasNext, free, ended]
    rw [spent]
    cases failure source <;> simp [SourceError.atEnd]

omit [MemoryLike σ] in
theorem eq_read_of_answer {asked : Call} {source : σ} {byte : UInt8}
    (answered : (call asked source).1 = .byte byte) : asked = .read := by
  cases asked with
  | read => rfl
  | hasNext | position => cases answered
  | unread given =>
    rw [call] at answered
    split at answered <;> cases answered

/-- Only a read frees the place of a byte that was given back. -/
theorem pending_call {byte : UInt8} {asked : Call} (no_read : asked ≠ .read) {source : σ}
    (held : (memory source).pending = some byte) :
    (memory (call asked source).2).pending = some byte := by
  have exchange := exchange_call asked source
  generalize answered : (call asked source).1 = answer at exchange
  generalize memory (call asked source).2 = after at exchange ⊢
  generalize failure (call asked source).2 = rest at exchange
  cases exchange with
  | more | notTaken _ | offset => exact held
  | again _ => exact absurd (eq_read_of_answer answered) no_read
  | fetch free _ | fresh free _ | noByte free _ | taken _ free =>
    rw [held] at free
    cases free

theorem pending_run {byte : UInt8} {calls : List Call} (no_read : Call.read ∉ calls) {source : σ}
    (held : (memory source).pending = some byte) :
    (memory (run calls source).2).pending = some byte := by
  induction calls generalizing source with
  | nil => exact held
  | cons first calls ih =>
    rw [List.mem_cons, not_or] at no_read
    exact ih no_read.2 (pending_call (Ne.symm no_read.1) held)

/-- A byte that was taken back is what the next read gives, whatever is asked in between. -/
theorem read_of_taken {byte : UInt8} {source : σ}
    (taken : (call (.unread byte) source).1 = .taken byte) {calls : List Call}
    (no_read : Call.read ∉ calls) :
    (call .read (run calls (call (.unread byte) source).2).2).1 = .byte byte := by
  have held : (memory (call (.unread byte) source).2).pending = some byte := by
    have exchange := exchange_call (.unread byte) source
    rw [taken] at exchange
    generalize memory (call (.unread byte) source).2 = after at exchange ⊢
    generalize failure (call (.unread byte) source).2 = rest at exchange
    cases exchange
    rfl
  rw [read_answer, MemorySource.read, pending_run no_read held]

end Calls

/-! ## Any run -/

section Runs

variable {σ : Type} [ByteSource σ]

/-- What holds of a source that has given `answers` since it was new. -/
structure Counted (answers : List Answer) (source : σ) : Prop where
  /-- At most one byte more was taken back than was read. -/
  balance : -1 ≤ balance answers
  position : (position source : Int) = max 0 (ByteSource.balance answers)
  /-- The next read gives the byte that is taken back. -/
  unread : ∀ byte, (call (.unread byte) source).1 = .taken byte →
    ∀ calls, Call.read ∉ calls →
      (call .read (run calls (call (.unread byte) source).2).2).1 = .byte byte
  /-- There is more exactly if the next read does not find the source exhausted. -/
  hasNext : (call .hasNext source).1 = .more true ↔
    ∀ offset, (call .read (call .hasNext source).2).1 ≠ .noByte (.exhausted offset)
  /-- Asking for more moves nothing. -/
  position_hasNext : ByteSource.position (call .hasNext source).2 = ByteSource.position source
  read_hasNext : (call .read (call .hasNext source).2).1 = (call .read source).1

theorem counted_run [MemoryLike σ] {source : σ} (fresh : (MemoryLike.memory source).level = 0)
    (calls : List Call) : Counted (run calls source).1 (run calls source).2 := by
  have level := level_run calls source
  rw [fresh, Int.zero_add] at level
  refine ⟨?_, ?_, fun byte taken calls no_read => read_of_taken taken no_read,
    more_iff_read_ne_exhausted _, position_hasNext _, read_answer_hasNext _⟩
  · rw [← level]
    exact MemorySource.neg_one_le_level _
  · rw [← level, MemoryLike.position_eq]
    exact MemorySource.position_eq_max_level _

/-- After any run of calls, on bytes in memory as on any stream, the position is the number of bytes read
less the number taken back, and what the next read will give is known. -/
theorem run_counts (bytes : List UInt8) (events : List StreamEvent) (calls : List Call) :
    let plain := run calls (MemorySource.ofBytes bytes)
    let stream := run calls (StreamSource.ofEvents events)
    Counted plain.1 plain.2 ∧ Counted stream.1 stream.2 :=
  ⟨counted_run rfl calls, counted_run rfl calls⟩

-- A byte given back in front of the first, while the stream asks ahead: the count is -1 until it is read.
example :
    let answers := (run [.unread 0x7A, .hasNext] (StreamSource.ofEvents [.byte 0x61])).1
    ByteSource.balance answers = -1 ∧ max 0 (ByteSource.balance answers) = 0 := by decide

end Runs

end ByteSource

end UnicodeInput
