import UnicodeInput.Proofs.Codec.Persists

/-! Decoding that goes on after errors comes to an end. What is outstanding of a source is its bytes, and
its failure if it has one to report. Asking for more costs nothing of that and finds out whether there is
any. A reader adds nothing, since it gives back no byte but the one it has just taken, and the first step
of every decoder takes a byte or reports the failure. So what is outstanding bounds the calls that are
left, whatever encoding each of them is made in. -/
namespace UnicodeInput

namespace MemorySource

variable {source after : MemorySource}

theorem hasNext_iff_deliverable_pos (source : MemorySource) :
    source.hasNext = true ↔ 0 < source.deliverable := by
  obtain ⟨rest, offset, pending⟩ := source
  cases pending with
  | some held => exact iff_of_true rfl (Nat.add_pos_left Nat.one_pos rest.length)
  | none =>
    cases rest with
    | nil => exact iff_of_false nofun (Nat.lt_irrefl 0)
    | cons byte rest => exact iff_of_true rfl (Nat.succ_pos _)

theorem deliverable_of_read {byte : UInt8} (read : source.read = .ok byte after) :
    after.deliverable + 1 = source.deliverable := by
  obtain ⟨rest, offset, pending⟩ := source
  cases pending with
  | some _ =>
    cases read
    simp [deliverable, Nat.add_comm]
  | none =>
    cases rest with
    | nil => cases read
    | cons _ _ =>
      cases read
      simp [deliverable]

theorem deliverable_of_spent (free : source.pending = none) (ended : source.rest = []) :
    source.deliverable = 0 := by
  rw [deliverable, free, ended]
  rfl

end MemorySource

namespace Codec

open ByteSource (deliverable)
open MemoryLike (failure memory)

section Readers

variable {σ : Type} [ByteSource σ] [MemoryLike σ] {source after : σ} {α β : Type}

/-- How many bytes a source has to give, and one more for a failure it has to report. -/
def outstanding (source : σ) : Nat := deliverable source + (failure source).toList.length

theorem deliverable_hasNext (source : σ) :
    deliverable (ByteSource.hasNext source).2 = deliverable source := by
  rw [MemoryLike.deliverable_eq, MemoryLike.deliverable_eq]
  rcases MemoryLike.memory_hasNext source with same | fetched
  · rw [same]
  · rw [fetched, MemorySource.deliverable_fetched]

theorem outstanding_hasNext (source : σ) :
    outstanding (ByteSource.hasNext source).2 = outstanding source := by
  rw [outstanding, deliverable_hasNext, MemoryLike.failure_hasNext, outstanding]

theorem hasNext_iff (source : σ) :
    (ByteSource.hasNext source).1 = true ↔
      0 < deliverable source ∨ (failure source).isSome = true := by
  rw [MemoryLike.hasNext_eq, Bool.or_eq_true, MemorySource.hasNext_iff_deliverable_pos,
    MemoryLike.deliverable_eq]

theorem hasNext_iff_outstanding_pos (source : σ) :
    (ByteSource.hasNext source).1 = true ↔ 0 < outstanding source := by
  rw [hasNext_iff, outstanding]
  cases failure source <;> simp

/-! ## What a reader leaves -/

/-- How a reader leaves a source: with so much outstanding at most, and with the failure `fails` not
reported yet. Or else that failure is what the reader reports, and then nothing is outstanding. -/
inductive Spends (left : Nat) (fails : Option FailureKind) : EStateM.Result DecodeError σ α → Prop
  | ok (a : α) {after : σ} : outstanding after ≤ left → failure after = fails →
      Spends left fails (.ok a after)
  | refused {e : DecodeError} {after : σ} : (∀ cause, e ≠ .source cause) → outstanding after ≤ left →
      failure after = fails → Spends left fails (.error e after)
  | failed {kind : FailureKind} {offset : Nat} {after : σ} : fails = some kind →
      outstanding after = 0 → Spends left fails (.error (.source (.failure offset kind)) after)

namespace Spends

variable {left more : Nat} {fails : Option FailureKind} {result : EStateM.Result DecodeError σ α}

theorem mono (spends : Spends left fails result) (fewer : left ≤ more) : Spends more fails result := by
  cases spends with
  | ok a bound same => exact .ok a (Nat.le_trans bound fewer) same
  | refused own bound same => exact .refused own (Nat.le_trans bound fewer) same
  | failed met nothing => exact .failed met nothing

/-- What is read behind another part is bounded by what that part left. -/
theorem behind (spends : Spends (outstanding after) (failure after) result)
    (bound : outstanding after ≤ left) (same : failure after = fails) : Spends left fails result :=
  (same ▸ spends).mono bound

theorem bind {x : EStateM DecodeError σ α} {f : α → EStateM DecodeError σ β}
    (first : Spends left fails (x source))
    (next : ∀ a after, x source = .ok a after → outstanding after ≤ left → failure after = fails →
      Spends left fails (f a after)) : Spends left fails ((x >>= f) source) := by
  cases run : x source with
  | ok a after =>
    rw [run] at first
    rw [bind_of_ok run]
    cases first with
    | ok _ bound same => exact next a after run bound same
  | error e after =>
    rw [run] at first
    rw [bind_of_error run]
    cases first with
    | refused own bound same => exact .refused own bound same
    | failed met nothing => exact .failed met nothing

theorem map (g : α → β) {x : EStateM DecodeError σ α} (spends : Spends left fails (x source)) :
    Spends left fails ((g <$> x) source) := by
  rw [map_eq_pure_bind]
  exact spends.bind fun a _ _ bound same => .ok (g a) bound same

end Spends

theorem spends_scalarOr {left : Nat} {fails : Option FailureKind} {e : DecodeError}
    (own : ∀ cause, e ≠ .source cause) (value : Nat) (bound : outstanding source ≤ left)
    (same : failure source = fails) : Spends left fails (scalarOr e value source) := by
  unfold scalarOr
  cases Codespace.scalar? value with
  | some c => exact .ok c bound same
  | none => exact .refused own bound same

theorem spends_more (source : σ) :
    Spends (outstanding source) (failure source)
      ((ByteSource.more : EStateM DecodeError σ Bool) source) := by
  rw [more_of_hasNext (rfl : ByteSource.hasNext source = (_, _))]
  exact .ok _ (Nat.le_of_eq (outstanding_hasNext source)) (MemoryLike.failure_hasNext source)

/-- A byte that is read is gone, and the place for a byte given back is free. Where there is none, the
failure is reported, or there is none of that either. -/
theorem nextByte_cases (encoding : Encoding) (source : σ) :
    match nextByte encoding source with
    | .ok _ after => outstanding after + 1 = outstanding source ∧ failure after = failure source ∧
        (memory after).pending = none
    | .error e after => outstanding after = 0 ∧
        match failure source with
        | some kind => ∃ offset, e = .source (.failure offset kind)
        | none => failure after = none ∧ ∃ offset, e = .truncated encoding offset := by
  have reads := MemoryLike.read_eq source
  cases plainly : (memory source).read with
  | ok byte behind =>
    rw [plainly] at reads
    obtain ⟨after, reads, same, fails⟩ := reads
    have taken : nextByte encoding source = .ok byte after := adaptExcept_eq_ok_iff.mpr reads
    have one := MemorySource.deliverable_of_read plainly
    rw [← same, ← MemoryLike.deliverable_eq, ← MemoryLike.deliverable_eq] at one
    rw [taken]
    refine ⟨?_, fails, same ▸ MemorySource.pending_of_read plainly⟩
    rw [outstanding, outstanding, fails, ← one, Nat.add_right_comm]
  | error e behind =>
    rw [plainly] at reads
    obtain ⟨after, reads, same, told⟩ := reads
    obtain ⟨free, ended, -, -⟩ := MemorySource.of_read_error plainly
    rw [nextByte, EStateM.adaptExcept, reads]
    constructor
    · rw [outstanding, MemoryLike.deliverable_eq, same, told,
        MemorySource.deliverable_of_spent free ended]
      rfl
    · cases failure source with
      | some kind => exact ⟨_, rfl⟩
      | none => exact ⟨told, _, rfl⟩

theorem spends_nextByte (encoding : Encoding) (source : σ) :
    Spends (outstanding source - 1) (failure source) (nextByte encoding source) := by
  have cases := nextByte_cases encoding source
  cases run : nextByte encoding source with
  | ok byte after =>
    rw [run] at cases
    exact .ok byte (Nat.le_sub_one_of_lt (Nat.le_of_eq cases.1)) cases.2.1
  | error e after =>
    rw [run] at cases
    obtain ⟨nothing, why⟩ := cases
    cases fails : failure source with
    | some kind =>
      rw [fails] at why
      obtain ⟨offset, rfl⟩ := why
      exact .failed rfl nothing
    | none =>
      rw [fails] at why
      obtain ⟨same, offset, rfl⟩ := why
      exact .refused nofun (nothing ▸ Nat.zero_le _) same

/-- The place for a byte given back is free, so the byte is taken and can be delivered again. -/
theorem putBack_of_free (free : (memory source).pending = none) (byte : UInt8) :
    ∃ behind, putBack byte source = .ok () behind ∧
      outstanding behind = outstanding source + 1 ∧ failure behind = failure source := by
  have unreads := MemoryLike.unread_eq byte source
  rw [MemorySource.unread, free] at unreads
  obtain ⟨behind, unreads, same, fails⟩ := unreads
  refine ⟨behind, adaptExcept_eq_ok_iff.mpr unreads, ?_, fails⟩
  rw [outstanding, outstanding, fails, MemoryLike.deliverable_eq, MemoryLike.deliverable_eq, same]
  simp only [MemorySource.deliverable, free, Option.toList_some, Option.toList_none,
    List.length_singleton, List.length_nil]
  omega

/-- The first byte is gone whatever becomes of the others. -/
theorem spends_nextBytes (encoding : Encoding) (n : Nat) (source : σ) :
    Spends (outstanding source - 1) (failure source) (nextBytes encoding (n + 1) source) := by
  induction n generalizing source with
  | zero => exact (spends_nextByte encoding source).map fun byte => [byte]
  | succ n ih =>
    refine (spends_nextByte encoding source).bind fun byte after _ bound same => ?_
    refine Spends.bind (((ih after).mono (Nat.sub_le ..)).behind bound same) ?_
    exact fun bytes _ _ bound same => .ok (byte :: bytes) bound same

namespace Utf8

/-- A byte that is given back has just been taken. -/
theorem spends_continuations (encoding : Encoding) (start n value : Nat) (source : σ) :
    Spends (outstanding source) (failure source) (continuations encoding start n value source) := by
  induction n generalizing source value with
  | zero => exact .ok value (Nat.le_refl _) rfl
  | succ n ih =>
    refine ((spends_nextByte encoding source).mono (Nat.sub_le ..)).bind ?_
    intro byte after read bound same
    have spent := nextByte_cases encoding source
    rw [read] at spent
    obtain ⟨one, -, free⟩ := spent
    split
    · exact (ih _ after).behind bound same
    · obtain ⟨behind, put, again, kept⟩ := putBack_of_free free byte
      rw [bind_of_ok put]
      exact .refused nofun (Nat.le_of_eq (again.trans one)) (kept.trans same)

theorem spends_decode (encoding : Encoding) (source : σ) :
    Spends (outstanding source - 1) (failure source) (decode encoding source) := by
  refine Spends.bind (x := nextByte encoding) (spends_nextByte encoding source) ?_
  intro byte after _ bound same
  cases Lead.ofByte? byte with
  | none => exact .refused nofun bound same
  | some lead =>
    refine ((spends_continuations encoding _ _ _ after).behind bound same).bind ?_
    intro value behind _ bound same
    split
    · exact .refused nofun bound same
    · exact spends_scalarOr (by nofun) value bound same

end Utf8

theorem Utf16.spends_nextUnit (order : ByteOrder) (source : σ) :
    Spends (outstanding source - 1) (failure source) (nextUnit order source) :=
  (spends_nextBytes (.utf16 order) 1 source).map order.join

theorem Utf16.spends_decode (order : ByteOrder) (source : σ) :
    Spends (outstanding source - 1) (failure source) (decode order source) := by
  refine Spends.bind (x := nextUnit order) (spends_nextUnit order source) ?_
  intro unit after _ bound same
  split
  · refine ((spends_more after).behind bound same).bind fun answer asked _ bound same => ?_
    split
    · refine (((spends_nextUnit order asked).mono (Nat.sub_le ..)).behind bound same).bind ?_
      intro low behind _ bound same
      split
      · exact spends_scalarOr (by nofun) _ bound same
      · exact .refused nofun bound same
    · exact .refused nofun bound same
  · split
    · exact .refused nofun bound same
    · exact spends_scalarOr (by nofun) unit bound same

theorem Utf32.spends_decode (order : ByteOrder) (source : σ) :
    Spends (outstanding source - 1) (failure source) (decode order source) := by
  refine Spends.bind (x := order.join <$> nextBytes (.utf32 order) 4)
    ((spends_nextBytes (.utf32 order) 3 source).map order.join) ?_
  intro value after _ bound same
  split
  · exact .refused nofun bound same
  · exact spends_scalarOr (by nofun) value bound same

/-- Whatever the encoding, a call leaves less outstanding, if there was anything. -/
theorem spends_decodeScalar (encoding : Encoding) (source : σ) :
    Spends (outstanding source - 1) (failure source) (decodeScalar encoding source) := by
  cases encoding with
  | utf8 | utf8Bom => exact Utf8.spends_decode _ source
  | utf16 order => exact Utf16.spends_decode order source
  | utf32 order => exact Utf32.spends_decode order source

end Readers

/-! ## Calls -/

section Calls

variable {σ : Type} [ByteSource σ]

/-- One call, and the source that is left. -/
def attempt (encoding : Encoding) (source : σ) : Item × σ :=
  apart (decodeScalar encoding source)

/-- Calls as long as the source has more, whatever they give, each in the next of the encodings. -/
def attemptEach : (encodings : List Encoding) → σ → List Item × σ
  | [], source => ([], source)
  | encoding :: encodings, source =>
    match ByteSource.hasNext source with
    | (false, rest) => ([], rest)
    | (true, asked) =>
      let (item, next) := attempt encoding asked
      let (items, rest) := attemptEach encodings next
      (item :: items, rest)

variable [MemoryLike σ]

theorem deliverable_lt_of_outstanding {source after : σ} (something : 0 < outstanding source)
    (bound : outstanding after ≤ outstanding source - 1) (same : failure after = failure source) :
    deliverable after < deliverable source := by
  rw [outstanding, same] at bound
  rw [outstanding] at something bound
  omega

/-- A call that is made where there is more takes a byte, or reports the failure and leaves nothing. -/
theorem attempt_cases (encoding : Encoding) {source : σ} (more : (ByteSource.hasNext source).1 = true) :
    let result := attempt encoding (ByteSource.hasNext source).2
    (deliverable result.2 < deliverable source ∧ failure result.2 = failure source ∧
      ∀ cause, result.1 ≠ .error (.source cause)) ∨
    ∃ kind offset, failure source = some kind ∧ result.1 = .error (.source (.failure offset kind)) ∧
      outstanding result.2 = 0 := by
  rw [hasNext_iff_outstanding_pos] at more
  have spends := spends_decodeScalar encoding (ByteSource.hasNext source).2
  rw [outstanding_hasNext, MemoryLike.failure_hasNext] at spends
  rw [attempt]
  generalize decodeScalar encoding (ByteSource.hasNext source).2 = result at spends
  cases spends with
  | ok c bound same => exact .inl ⟨deliverable_lt_of_outstanding more bound same, same, nofun⟩
  | refused own bound same =>
    exact .inl ⟨deliverable_lt_of_outstanding more bound same, same,
      fun cause given => own cause (Except.error.inj given)⟩
  | failed met nothing => exact .inr ⟨_, _, met, rfl, nothing⟩

theorem outstanding_attempt (encoding : Encoding) {source : σ}
    (more : (ByteSource.hasNext source).1 = true) :
    outstanding (attempt encoding (ByteSource.hasNext source).2).2 < outstanding source := by
  rcases attempt_cases encoding more with ⟨fewer, same, -⟩ | ⟨-, -, -, -, nothing⟩
  · rw [outstanding, same]
    exact Nat.add_lt_add_right fewer _
  · rw [nothing]
    exact (hasNext_iff_outstanding_pos source).mp more

theorem length_attemptEach_le (encodings : List Encoding) (source : σ) :
    (attemptEach encodings source).1.length ≤ outstanding source := by
  induction encodings generalizing source with
  | nil => exact Nat.zero_le _
  | cons encoding encodings ih =>
    rw [attemptEach]
    rcases asked : ByteSource.hasNext source with ⟨_ | _, next⟩
    · exact Nat.zero_le _
    · have fewer := outstanding_attempt encoding (congrArg Prod.fst asked)
      rw [asked] at fewer
      exact Nat.lt_of_le_of_lt (ih _) fewer

/-- The loop stops short of its encodings only where there is no more. -/
theorem hasNext_attemptEach {encodings : List Encoding} {source : σ}
    (short : (attemptEach encodings source).1.length < encodings.length) :
    (ByteSource.hasNext (attemptEach encodings source).2).1 = false := by
  induction encodings generalizing source with
  | nil => exact absurd short (Nat.not_lt_zero _)
  | cons encoding encodings ih =>
    rw [attemptEach] at short ⊢
    rcases asked : ByteSource.hasNext source with ⟨_ | _, next⟩
    · have again := MemoryLike.hasNext_hasNext source (congrArg Prod.fst asked)
      rw [asked] at again
      exact congrArg Prod.fst again
    · rw [asked] at short
      exact ih (Nat.lt_of_succ_lt_succ short)

/-- The loop for one encoding is the run of a caller who goes on after errors, so there is one for every
source. -/
theorem exists_persists (encoding : Encoding) (source : σ) :
    ∃ items rest, Persists encoding source items rest ∧ items.length ≤ outstanding source := by
  -- There is no list of encodings to go by here, only that a call leaves less outstanding.
  induction left : outstanding source using Nat.strongRecOn generalizing source with
  | ind left ih =>
    subst left
    rcases asked : ByteSource.hasNext source with ⟨_ | _, next⟩
    · exact ⟨[], next, .finished asked, Nat.zero_le _⟩
    · have fewer := outstanding_attempt encoding (congrArg Prod.fst asked)
      rw [asked] at fewer
      obtain ⟨items, rest, run, bound⟩ := ih _ fewer _ rfl
      exact ⟨(attempt encoding next).1 :: items, rest, .call asked (leaving_apart _).symm run,
        Nat.lt_of_le_of_lt bound fewer⟩

end Calls

/-! ## The two sources -/

/-- What a caller can count on who asks a source for scalar values as long as it has more, whatever the
calls give and whatever encodings they are made in. The source has the failure `fails` to report. -/
structure Dwindles {σ : Type} [ByteSource σ] (fails : Option FailureKind) (source : σ) : Prop where
  /-- There is more exactly if there is a byte to deliver or a failure to report. -/
  more : (ByteSource.hasNext source).1 = true ↔ 0 < deliverable source ∨ fails.isSome = true
  /-- Asking for more costs nothing. -/
  asking : deliverable (ByteSource.hasNext source).2 = deliverable source
  /-- A call then lowers the number of bytes, or it reports the failure and there is no more. -/
  call : (ByteSource.hasNext source).1 = true → ∀ encoding,
    let result := attempt encoding (ByteSource.hasNext source).2
    (deliverable result.2 < deliverable source ∧ ∀ cause, result.1 ≠ .error (.source cause)) ∨
    ∃ kind offset, fails = some kind ∧ result.1 = .error (.source (.failure offset kind)) ∧
      (ByteSource.hasNext result.2).1 = false
  /-- No more calls are made than there are bytes, and one more if there is a failure. -/
  calls : ∀ encodings, (attemptEach encodings source).1.length ≤
    deliverable source + if fails.isSome then 1 else 0
  /-- Only where there is no more is the loop over before its encodings are. -/
  ends : ∀ encodings, (attemptEach encodings source).1.length < encodings.length →
    (ByteSource.hasNext (attemptEach encodings source).2).1 = false

theorem dwindles {σ : Type} [ByteSource σ] [MemoryLike σ] (source : σ) :
    Dwindles (failure source) source where
  more := hasNext_iff source
  asking := deliverable_hasNext source
  call more encoding := by
    rcases attempt_cases encoding more with
      ⟨fewer, -, own⟩ | ⟨kind, offset, fails, told, nothing⟩
    · exact .inl ⟨fewer, own⟩
    · refine .inr ⟨kind, offset, fails, told, ?_⟩
      rw [← Bool.not_eq_true, hasNext_iff_outstanding_pos, nothing]
      exact Nat.lt_irrefl 0
  calls encodings := by
    have bound := length_attemptEach_le encodings source
    rw [outstanding] at bound
    cases fails : failure source <;> simpa [fails] using bound
  ends _ short := hasNext_attemptEach short

/-- On bytes in memory and on a stream, in any state, every call that is made where there is more takes a
byte or reports the one failure, and the calls come to an end. -/
theorem calls_run_out (plain : MemorySource) (stream : StreamSource) :
    Dwindles none plain ∧ Dwindles stream.failure stream :=
  ⟨dwindles plain, dwindles stream⟩

-- The letter is given back, begins a unit and meets the failure. There are two calls, and no third.
example : (attemptEach [.utf8, .utf16 .big, .utf8, .utf8]
      (StreamSource.ofEvents [.byte 0xC3, .byte 0x41, .failure .timedOut, .byte 0x42])).1 =
    [.error (.malformed .utf8 0), .error (.source (.failure 2 .timedOut))] := by decide

end Codec

end UnicodeInput
