import UnicodeInput.Proofs.Codec.Ending
import UnicodeInput.Proofs.Codec.Run

/-! Whole runs where the bytes end in a failure. Reading a mark and decoding to the end are done on a
source beside the bytes that it shows, as single sequences are. A run over the bytes that comes to their
end, or is cut short there, meets the failure on the source, behind the same scalar values. -/
namespace UnicodeInput.Codec

open ByteSource (position)

/-- The answer of a run, and the offset where it leaves the source. -/
def settled {σ ε α : Type} [ByteSource σ] : EStateM.Result ε σ α → Except ε α × Nat
  | .ok a source => (.ok a, position source)
  | .error e source => (.error e, position source)

theorem settled_leaving {σ ε α : Type} [ByteSource σ] (rest : σ) (result : Except ε α) :
    settled (leaving rest result) = (result, position rest) := by
  cases result <;> rfl

/-- What stops a run if the bytes end at `finish` in a failure, or just end. -/
def faultEndingIn (failure : Option FailureKind) (finish : Nat) :
    Option DecodeError → Option DecodeError
  | some e => some (e.endingIn failure finish)
  | none => failure.map fun kind => .source (.failure finish kind)

/-- What becomes of a result if the bytes end at `finish` in a failure, or just end. -/
def resultEndingIn {α : Type} (failure : Option FailureKind) (finish : Nat) :
    Except DecodeError α → Except DecodeError α
  | .error e => .error (e.endingIn failure finish)
  | .ok a =>
    match failure with
    | some kind => .error (.source (.failure finish kind))
    | none => .ok a

@[simp] theorem faultEndingIn_none (finish : Nat) (fault : Option DecodeError) :
    faultEndingIn none finish fault = fault := by
  cases fault <;> rfl

theorem resultEndingIn_verdict {α : Type} (failure : Option FailureKind) (finish : Nat)
    (fault : Option DecodeError) (a : α) :
    resultEndingIn failure finish (verdict fault a) =
      verdict (faultEndingIn failure finish fault) a := by
  cases fault <;> cases failure <;> rfl

/-- A failure is never taken for the end. -/
theorem resultEndingIn_ne_ok {α : Type} {failure : Option FailureKind} (fails : failure.isSome = true)
    (finish : Nat) (result : Except DecodeError α) (a : α) :
    resultEndingIn failure finish result ≠ .ok a := by
  obtain ⟨kind, rfl⟩ := Option.isSome_iff_exists.mp fails
  cases result <;> exact nofun

/-- Two decoders at the same offset before the first call and after it are so for ever if no later call
changes them. -/
theorem Decoder.alike_of_next {σ τ : Type} [ByteSource σ] [ByteSource τ] {one behind : Decoder σ} {other beyond : Decoder τ}
    {item item' later later' : Option Item} (start : position one.source = position other.source)
    (first : one.next = (item, behind)) (stays : behind.next = (later, behind))
    (first' : other.next = (item', beyond)) (stays' : beyond.next = (later', beyond))
    (same : position behind.source = position beyond.source) (n : Nat) :
    position (one.after n).source = position (other.after n).source := by
  cases n with
  | zero => exact start
  | succ n =>
    have rest : behind.after n = behind := after_of_next_eq stays n
    have rest' : beyond.after n = beyond := after_of_next_eq stays' n
    rw [after, first, after, first', rest, rest', same]

section Shows

variable {σ : Type} [ByteSource σ] [MemoryLike σ] {failure : Option FailureKind} {finish : Nat}
  {plain : MemorySource} {source : σ} {encoding : Encoding}

/-! ## Marks -/

theorem follows_expectBytes (shows : Shows failure finish plain source) (expected : List UInt8) :
    Follows failure finish (expectBytes encoding expected plain)
      (expectBytes encoding expected source) := by
  induction expected generalizing plain source with
  | nil => exact .ok () shows
  | cons byte expected ih =>
    have reads := shows.read_eq
    have start : position plain = plain.offset := MemorySource.position_of_free shows.free
    unfold expectBytes
    dsimp only
    rw [shows.position_eq, start]
    cases ahead : plain.rest with
    | nil =>
      have ended : plain.offset = finish := by rw [← shows.finish, MemorySource.finish, ahead]; rfl
      rw [ahead] at reads
      obtain ⟨after, refused, same⟩ := reads
      rw [refused, (MemorySource.read_eq_error_iff shows.free).mpr ⟨ahead, rfl, rfl⟩, ended]
      cases failure with
      | none => exact .error rfl same
      | some kind =>
        have lacks : (DecodeError.wrongMark encoding byte finish).isOpen finish = true :=
          beq_self_eq_true finish
        exact .error (DecodeError.endingIn_of_open lacks kind).symm same
    | cons got rest =>
      have inside : 1 ≤ plain.rest.length := by
        rw [ahead]
        exact Nat.le_add_left ..
      rw [ahead] at reads
      obtain ⟨after, given, moved, fails⟩ := reads
      have shown := shows.skip ahead moved fails
      rw [given, (MemorySource.read_eq_ok_iff shows.free).mpr ⟨⟨rest, ahead.symm⟩, rfl⟩]
      dsimp only
      split
      · exact ih shown
      · refine .error (DecodeError.endingIn_of_decided ?_ failure).symm shown.position_eq
        rw [DecodeError.isOpen, beq_eq_false_iff_ne, ← shows.finish, MemorySource.finish]
        omega

/-- What reading a mark gives on a source, beside what it gives on the bytes that the source shows. These
may have the next one fetched by then. Where a mark may be missing and nothing else is there, the failure
of the source is met before the mark is. -/
inductive MarkFollows (failure : Option FailureKind) (finish : Nat) :
    EStateM.Result DecodeError MemorySource Unit → EStateM.Result DecodeError σ Unit → Prop
  | behind {marked after : MemorySource} {rest : σ} : Shows none finish marked after →
      Shows failure finish marked rest → MarkFollows failure finish (.ok () after) (.ok () rest)
  | wrong {e : DecodeError} {after : MemorySource} {rest : σ} : position rest = position after →
      MarkFollows failure finish (.error e after) (.error (e.endingIn failure finish) rest)
  | failed {kind : FailureKind} {after : MemorySource} {rest : σ} : failure = some kind →
      Shows none finish after after → after.rest = [] → position rest = position after →
      MarkFollows failure finish (.ok () after) (.error (.source (.failure finish kind)) rest)

theorem MarkFollows.of_follows {result : EStateM.Result DecodeError MemorySource Unit}
    {result' : EStateM.Result DecodeError σ Unit} (both : Follows failure finish result result') :
    MarkFollows failure finish result result' := by
  cases both with
  | ok _ shows => exact .behind (shows.finish ▸ shows_self shows.free) shows
  | error given same => exact given ▸ .wrong same

/-- A mark that may be missing is decided by the first byte, which may not be there. -/
theorem follows_optionalMark (shows : Shows failure finish plain source) :
    MarkFollows failure finish (readMark .utf8Bom plain) (readMark .utf8Bom source) := by
  rw [readMark, readMark]
  cases ahead : plain.rest with
  | nil =>
    obtain ⟨asked, more, shown⟩ := shows.hasNext_of_nil ahead
    have more' := (MemorySource.hasNext_eq_end_iff shows.free).mpr ⟨ahead, rfl⟩
    rw [bind_of_ok (more_of_hasNext more'), bind_of_ok (more_of_hasNext more)]
    cases failure with
    | none => exact .behind (shows.finish ▸ shows_self shows.free) shown
    | some kind =>
      have reads := shown.read_eq
      rw [ahead] at reads
      obtain ⟨after, refused, same⟩ := reads
      have reported : EStateM.adaptExcept DecodeError.source ByteSource.read asked = _ :=
        adaptExcept_eq_error_iff.mpr ⟨_, refused, rfl⟩
      change MarkFollows _ _ (.ok () plain) ((EStateM.adaptExcept _ _ >>= _) asked)
      rw [bind_of_error reported]
      exact .failed rfl (shows.finish ▸ shows_self shows.free) ahead same
  | cons first rest =>
    have follows : plain.rest ≠ [] := ahead ▸ List.cons_ne_nil first rest
    obtain ⟨asked, more, shown⟩ := shows.hasNext_of_ne_nil follows
    have more' := (MemorySource.hasNext_eq_more_iff shows.free).mpr ⟨follows, rfl⟩
    have reads := shown.read_eq
    rw [ahead] at reads
    obtain ⟨after, given, moved, fails⟩ := reads
    have given' := (MemorySource.read_eq_ok_iff shows.free).mpr ⟨⟨rest, ahead.symm⟩, rfl⟩
    rw [bind_of_ok (more_of_hasNext more'), bind_of_ok (more_of_hasNext more)]
    change MarkFollows _ _ ((EStateM.adaptExcept _ _ >>= _) plain)
      ((EStateM.adaptExcept _ _ >>= _) asked)
    rw [bind_of_ok (adaptExcept_eq_ok_iff.mpr given), bind_of_ok (adaptExcept_eq_ok_iff.mpr given')]
    split
    · exact .of_follows (follows_expectBytes (shown.skip ahead moved fails) _)
    · obtain ⟨behind, back, kept⟩ := shown.putBack_eq ahead moved fails
      rw [back, putBack_of_cons shows.free ahead]
      exact .behind (shows.finish ▸ shows_fetched shows.free) kept

theorem follows_readMark (shows : Shows failure finish plain source) (encoding : Encoding) :
    MarkFollows failure finish (readMark encoding plain) (readMark encoding source) := by
  cases encoding with
  | utf8 => exact .of_follows (.ok () shows)
  | utf8Bom => exact follows_optionalMark shows
  | utf16 order => exact .of_follows (follows_expectBytes shows _)
  | utf32 order => exact .of_follows (follows_expectBytes shows _)

/-! ## Runs -/

/-- A run over the bytes is a run on the source too, with the fault that the failure leaves of its own.
After every call of a decoder the two are at the same offset. -/
theorem Decodes.endingIn {scalars : List Char} {fault : Option DecodeError} {left : MemorySource}
    (run : Decodes encoding plain scalars fault left) (shows : Shows failure finish plain source) :
    ∃ rest, Decodes encoding source scalars (faultEndingIn failure finish fault) rest ∧
      position rest = position left ∧
      (faultEndingIn failure finish fault = none → ByteSource.hasNext rest = (false, rest)) ∧
      ∀ n, position (Decoder.after n { source, encoding }).source =
        position (Decoder.after n { source := plain, encoding }).source := by
  induction run generalizing source with
  | @finished _ plain empty =>
    obtain ⟨ended, rfl⟩ := (MemorySource.hasNext_eq_end_iff shows.free).mp empty
    obtain ⟨asked, more, shown⟩ := shows.hasNext_of_nil ended
    have first : Decoder.next { source := _, encoding } = _ := Decoder.next_of_end empty
    cases failure with
    | none =>
      have done := MemoryLike.hasNext_hasNext source (congrArg Prod.fst more)
      rw [more] at done
      refine ⟨asked, .finished more, shown.position_eq, fun _ => done, ?_⟩
      exact Decoder.alike_of_next shows.position_eq (Decoder.next_of_end more)
        (Decoder.next_of_end done) first first shown.position_eq
    | some kind =>
      obtain ⟨after, refused, same⟩ := decodeScalar_of_nil shown ended
      refine ⟨after, .failed more refused, same, nofun, ?_⟩
      exact Decoder.alike_of_next shows.position_eq (Decoder.next_of_error more refused)
        (Decoder.next_of_failed rfl) first first same
  | @failed plain _ left e more refused =>
    obtain ⟨follows, rfl⟩ := (MemorySource.hasNext_eq_more_iff shows.free).mp more
    obtain ⟨asked, more', shown⟩ := shows.hasNext_of_ne_nil follows
    have both : Follows _ _ (decodeScalar encoding _) _ := follows_decodeScalar shown
    rw [refused] at both
    obtain ⟨rest, reported, same⟩ := both.exists_of_error
    refine ⟨rest, .failed more' reported, same, nofun, ?_⟩
    exact Decoder.alike_of_next shows.position_eq (Decoder.next_of_error more' reported)
      (Decoder.next_of_failed rfl) (Decoder.next_of_error more refused)
      (Decoder.next_of_failed rfl) same
  | @step plain _ next left c scalars fault more decoded run ih =>
    obtain ⟨follows, rfl⟩ := (MemorySource.hasNext_eq_more_iff shows.free).mp more
    obtain ⟨asked, more', shown⟩ := shows.hasNext_of_ne_nil follows
    have both : Follows _ _ (decodeScalar encoding _) _ := follows_decodeScalar shown
    rw [decoded] at both
    obtain ⟨behind, decoded', shown'⟩ := both.exists_of_ok
    obtain ⟨rest, run', same, done, alike⟩ := ih shown'
    refine ⟨rest, .step more' decoded' run', same, done, fun n => ?_⟩
    cases n with
    | zero => exact shows.position_eq
    | succ n =>
      rw [Decoder.after, Decoder.next_of_ok more' decoded', Decoder.after,
        Decoder.next_of_ok more decoded]
      exact alike n

theorem Shows.length_le (shows : Shows failure finish plain source) {scalars : List Char}
    {fault : Option DecodeError} {left : MemorySource}
    (run : Decodes encoding plain scalars fault left) :
    scalars.length ≤ ByteSource.deliverable source := by
  rw [shows.deliverable_eq]
  exact Nat.le_add_left_of_le (run.length_le shows.free)

theorem settled_foldScalars {β : Type} {f : β → Char → β} {scalars : List Char}
    {fault : Option DecodeError} {left : MemorySource}
    (run : Decodes encoding plain scalars fault left) (shows : Shows failure finish plain source)
    (acc : β) :
    settled (foldScalars encoding f acc source) =
      (verdict (faultEndingIn failure finish fault) (scalars.foldl f acc), position left) := by
  obtain ⟨rest, run', same, -⟩ := run.endingIn shows
  rw [run'.foldScalars_eq (shows.length_le run), settled_leaving, same]

end Shows

theorem shows_ofEvents (events : List StreamEvent) :
    Shows (StreamSource.failure? events) (StreamSource.bytesAhead events).length
      (MemorySource.ofBytes (StreamSource.bytesAhead events)) (StreamSource.ofEvents events) :=
  ⟨rfl, Nat.zero_add _, .inl rfl, rfl⟩

end UnicodeInput.Codec
