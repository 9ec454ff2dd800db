import UnicodeInput.Proofs.Codec.Fault
import UnicodeInput.Proofs.Source.MemoryLike

/-! Decoding where the bytes end in a failure. The readers of a sequence are run on a source that stands
for bytes in memory and on these bytes themselves, side by side. They give the same until the bytes run
out. There a fault that the bytes alone decide is reported as it is, and a fault that more bytes could
have mended gives way to the failure. -/
namespace UnicodeInput

/-- Whether a fault is one of missing bytes, in input that ends at `finish`. A surrogate that begins a
pair is lone for want of the other half if nothing follows it. -/
def DecodeError.isOpen (finish : Nat) : DecodeError → Bool
  | truncated _ _ => true
  | malformed _ _ => false
  | loneSurrogate _ offset unit => Codespace.isHighSurrogate unit && offset + 2 == finish
  | wrongMark _ _ offset => offset == finish
  | source _ => false

/-- The fault to report if the bytes end at `finish` in a failure, or just end. -/
def DecodeError.endingIn (failure : Option FailureKind) (finish : Nat) (e : DecodeError) :
    DecodeError :=
  match failure with
  | some kind => if e.isOpen finish then .source (.failure finish kind) else e
  | none => e

theorem DecodeError.endingIn_of_open {finish : Nat} {e : DecodeError} (lacks : e.isOpen finish = true)
    (kind : FailureKind) : e.endingIn (some kind) finish = .source (.failure finish kind) :=
  if_pos lacks

theorem DecodeError.isOpen_loneSurrogate_of_lt {finish offset : Nat} (inside : offset + 2 < finish)
    (encoding : Encoding) (unit : Nat) : (loneSurrogate encoding offset unit).isOpen finish = false := by
  rw [isOpen, beq_false_of_ne (Nat.ne_of_lt inside), Bool.and_false]

theorem DecodeError.endingIn_of_decided {finish : Nat} {e : DecodeError}
    (decided : e.isOpen finish = false) (failure : Option FailureKind) :
    e.endingIn failure finish = e := by
  cases failure with
  | none => rfl
  | some kind => exact if_neg (Bool.eq_false_iff.mp decided)

theorem MemorySource.unread_skip {source : MemorySource} (free : source.pending = none) {byte : UInt8}
    {rest : List UInt8} (ahead : source.rest = byte :: rest) :
    (source.skip 1).unread byte = .ok () source.fetched := by
  have fetched : source.fetched = { source.skip 1 with pending := some byte } := by
    simp [fetched, free, ahead]
  rw [fetched, unread, pending_skip, free]

namespace Codec

open ByteSource (position)

/-- The next byte, taken and given back, is ahead again. -/
theorem putBack_of_cons {source : MemorySource} (free : source.pending = none) {byte : UInt8}
    {rest : List UInt8} (ahead : source.rest = byte :: rest) :
    putBack byte (source.skip 1) = .ok () source.fetched :=
  adaptExcept_eq_ok_iff.mpr (MemorySource.unread_skip free ahead)

section Shows

variable {σ : Type} [ByteSource σ] [MemoryLike σ]

/-- A source that stands for the bytes of `plain`, from where these are on. The next byte may have been
fetched ahead. -/
structure Shows (failure : Option FailureKind) (finish : Nat) (plain : MemorySource) (source : σ) :
    Prop where
  free : plain.pending = none
  finish : plain.finish = finish
  memory : MemoryLike.memory source = plain ∨ MemoryLike.memory source = plain.fetched
  failure : MemoryLike.failure source = failure

variable {failure : Option FailureKind} {finish : Nat} {plain : MemorySource} {source : σ}

/-- Bytes in memory show themselves, also with the next one fetched. -/
theorem shows_self (free : plain.pending = none) : Shows none plain.finish plain plain :=
  ⟨free, rfl, .inl rfl, rfl⟩

theorem shows_fetched (free : plain.pending = none) : Shows none plain.finish plain plain.fetched :=
  ⟨free, rfl, .inr rfl, rfl⟩

namespace Shows

theorem position_eq (shows : Shows failure finish plain source) :
    position source = position plain := by
  rw [MemoryLike.position_eq]
  rcases shows.memory with same | same
  · rw [same]
    rfl
  · rw [same, MemorySource.position_fetched]
    rfl

theorem deliverable_eq (shows : Shows failure finish plain source) :
    ByteSource.deliverable source = plain.deliverable := by
  rw [MemoryLike.deliverable_eq]
  rcases shows.memory with same | same
  · rw [same]
  · rw [same, MemorySource.deliverable_fetched]

/-- Asked for more, a source answers for its failure too, and shows the same bytes as before. -/
theorem hasNext_eq (shows : Shows failure finish plain source) :
    ∃ asked, ByteSource.hasNext source = (plain.hasNext || failure.isSome, asked) ∧
      Shows failure finish plain asked := by
  obtain ⟨free, finish, memory, fails⟩ := shows
  refine ⟨(ByteSource.hasNext source).2, Prod.ext ?_ rfl, free, finish, ?_, ?_⟩
  · rw [MemoryLike.hasNext_eq, fails]
    rcases memory with same | same
    · rw [same]
    · rw [same, MemorySource.hasNext_fetched]
  · rcases MemoryLike.memory_hasNext source with stays | moves
    · rwa [stays]
    · rw [moves]
      rcases memory with same | same
      · exact .inr (congrArg MemorySource.fetched same)
      · rw [same, MemorySource.fetched_fetched]
        exact .inr rfl
  · rw [MemoryLike.failure_hasNext, fails]

theorem hasNext_of_ne_nil (shows : Shows failure finish plain source) (follows : plain.rest ≠ []) :
    ∃ asked, ByteSource.hasNext source = (true, asked) ∧ Shows failure finish plain asked := by
  obtain ⟨asked, more, shown⟩ := shows.hasNext_eq
  rw [(MemorySource.hasNext_eq_true_iff shows.free).mpr follows, Bool.true_or] at more
  exact ⟨asked, more, shown⟩

theorem hasNext_of_nil (shows : Shows failure finish plain source) (ended : plain.rest = []) :
    ∃ asked, ByteSource.hasNext source = (failure.isSome, asked) ∧
      Shows failure finish plain asked := by
  obtain ⟨asked, more, shown⟩ := shows.hasNext_eq
  have none_left : plain.hasNext = false := by simp [MemorySource.hasNext, shows.free, ended]
  rw [none_left, Bool.false_or] at more
  exact ⟨asked, more, shown⟩

/-- A source gives the next byte, or what stands at the end. -/
theorem read_eq (shows : Shows failure finish plain source) :
    match plain.rest with
    | byte :: _ => ∃ after, ByteSource.read source = .ok byte after ∧
        MemoryLike.memory after = plain.skip 1 ∧ MemoryLike.failure after = failure
    | [] => ∃ after, ByteSource.read source = .error (.atEnd failure finish) after ∧
        position after = position plain := by
  have reads := MemoryLike.read_eq source
  have plainly : (MemoryLike.memory source).read = plain.read := by
    rcases shows.memory with same | same
    · rw [same]
    · rw [same, MemorySource.read_fetched]
  rw [plainly, shows.failure] at reads
  cases ahead : plain.rest with
  | cons byte rest =>
    have given : plain.read = .ok byte (plain.skip 1) :=
      (MemorySource.read_eq_ok_iff shows.free).mpr ⟨⟨rest, ahead.symm⟩, rfl⟩
    rw [given] at reads
    exact reads
  | nil =>
    have refused : plain.read = .error (.exhausted plain.finish) plain :=
      (MemorySource.read_eq_error_iff shows.free).mpr ⟨ahead, rfl, rfl⟩
    have same : MemoryLike.memory source = plain := by
      have stays := shows.memory
      rwa [plain.fetched_of_nil ahead, or_self] at stays
    have offset : plain.offset = finish := by rw [← shows.finish, MemorySource.finish, ahead]; rfl
    rw [refused, same, offset] at reads
    obtain ⟨after, reads, stays, -⟩ := reads
    refine ⟨after, reads, ?_⟩
    rw [MemoryLike.position_eq, stays]
    rfl

/-! A byte is taken, and perhaps given back. -/

section Taken

variable {byte : UInt8} {rest : List UInt8} {read : σ} (shows : Shows failure finish plain source)
  (ahead : plain.rest = byte :: rest) (moved : MemoryLike.memory read = plain.skip 1)
  (fails : MemoryLike.failure read = failure)
include shows ahead moved fails

theorem skip : Shows failure finish (plain.skip 1) read := by
  have inside : 1 ≤ plain.rest.length := by
    rw [ahead]
    exact Nat.le_add_left ..
  exact ⟨shows.free, (MemorySource.finish_skip inside).trans shows.finish, .inl moved, fails⟩

theorem putBack_eq : ∃ after, putBack byte read = .ok () after ∧ Shows failure finish plain after := by
  have unreads := MemoryLike.unread_eq byte read
  rw [moved, MemorySource.unread_skip shows.free ahead] at unreads
  obtain ⟨after, unreads, stays, fails'⟩ := unreads
  exact ⟨after, adaptExcept_eq_ok_iff.mpr unreads, shows.free, shows.finish, .inr stays,
    fails'.trans fails⟩

end Taken

end Shows

/-! ## Side by side -/

/-- What a reader gives on a source, beside what it gives on the bytes that the source shows. -/
inductive Follows (failure : Option FailureKind) (finish : Nat) {α : Type} :
    EStateM.Result DecodeError MemorySource α → EStateM.Result DecodeError σ α → Prop
  | ok (a : α) {after : MemorySource} {rest : σ} : Shows failure finish after rest →
      Follows failure finish (.ok a after) (.ok a rest)
  | error {e e' : DecodeError} {after : MemorySource} {rest : σ} :
      e' = e.endingIn failure finish → position rest = position after →
      Follows failure finish (.error e after) (.error e' rest)

namespace Follows

variable {α β : Type}

theorem exists_of_ok {a : α} {after : MemorySource} {result : EStateM.Result DecodeError σ α}
    (both : Follows failure finish (.ok a after) result) :
    ∃ rest, result = .ok a rest ∧ Shows failure finish after rest := by
  cases both with
  | ok _ shows => exact ⟨_, rfl, shows⟩

theorem exists_of_error {e : DecodeError} {after : MemorySource}
    {result : EStateM.Result DecodeError σ α} (both : Follows failure finish (.error e after) result) :
    ∃ rest, result = .error (e.endingIn failure finish) rest ∧ position rest = position after := by
  cases both with
  | error given same => exact ⟨_, given ▸ rfl, same⟩

theorem bind {x : EStateM DecodeError MemorySource α} {y : EStateM DecodeError σ α}
    {f : α → EStateM DecodeError MemorySource β} {g : α → EStateM DecodeError σ β}
    (first : Follows failure finish (x plain) (y source))
    (next : ∀ a after rest, x plain = .ok a after → Shows failure finish after rest →
      Follows failure finish (f a after) (g a rest)) :
    Follows failure finish ((x >>= f) plain) ((y >>= g) source) := by
  cases result : x plain with
  | ok a after =>
    rw [result] at first
    obtain ⟨rest, result', shows⟩ := first.exists_of_ok
    rw [bind_of_ok result, bind_of_ok result']
    exact next a after rest result shows
  | error e after =>
    rw [result] at first
    obtain ⟨rest, result', same⟩ := first.exists_of_error
    rw [bind_of_error result, bind_of_error result']
    exact .error rfl same

theorem map (g : α → β) {x : EStateM DecodeError MemorySource α} {y : EStateM DecodeError σ α}
    (first : Follows failure finish (x plain) (y source)) :
    Follows failure finish ((g <$> x) plain) ((g <$> y) source) := by
  rw [map_eq_pure_bind, map_eq_pure_bind]
  exact first.bind fun a _ _ _ shows => .ok (g a) shows

end Follows

variable {encoding : Encoding} {α : Type}

/-- A fault that the bytes decide is the same on both sides. -/
theorem follows_throw (shows : Shows failure finish plain source) {e : DecodeError}
    (decided : e.isOpen finish = false) :
    Follows failure finish ((throw e : EStateM DecodeError MemorySource α) plain)
      ((throw e : EStateM DecodeError σ α) source) :=
  .error (e.endingIn_of_decided decided failure).symm shows.position_eq

theorem follows_scalarOr (shows : Shows failure finish plain source) {e : DecodeError}
    (decided : e.isOpen finish = false) (value : Nat) :
    Follows failure finish (scalarOr e value plain) (scalarOr e value source) := by
  unfold scalarOr
  cases Codespace.scalar? value with
  | some c => exact .ok c shows
  | none => exact follows_throw shows decided

theorem follows_here (shows : Shows failure finish plain source) :
    Follows failure finish (ByteSource.here plain) (ByteSource.here source) := by
  unfold ByteSource.here
  rw [shows.position_eq]
  exact .ok _ shows

theorem follows_more (shows : Shows failure finish plain source) (follows : plain.rest ≠ []) :
    Follows failure finish ((ByteSource.more : EStateM DecodeError MemorySource Bool) plain)
      ((ByteSource.more : EStateM DecodeError σ Bool) source) := by
  obtain ⟨asked, more, shown⟩ := shows.hasNext_of_ne_nil follows
  have more' := (MemorySource.hasNext_eq_more_iff shows.free).mpr ⟨follows, rfl⟩
  rw [more_of_hasNext more, more_of_hasNext more']
  exact .ok true shown

/-- Where there is no byte, the source reports that, or its failure. -/
theorem nextByte_of_nil (encoding : Encoding) (shows : Shows failure finish plain source)
    (ended : plain.rest = []) :
    ∃ after, nextByte encoding source =
        .error ((DecodeError.truncated encoding finish).endingIn failure finish) after ∧
      position after = position plain := by
  have reads := shows.read_eq
  rw [ended] at reads
  obtain ⟨after, reads, same⟩ := reads
  refine ⟨after, adaptExcept_eq_error_iff.mpr ⟨_, reads, ?_⟩, same⟩
  cases failure <;> rfl

theorem nextByte_of_cons (encoding : Encoding) (shows : Shows failure finish plain source)
    {byte : UInt8} {rest : List UInt8} (ahead : plain.rest = byte :: rest) :
    ∃ after, nextByte encoding source = .ok byte after ∧
      MemoryLike.memory after = plain.skip 1 ∧ MemoryLike.failure after = failure := by
  have reads := shows.read_eq
  rw [ahead] at reads
  obtain ⟨after, reads, moved⟩ := reads
  exact ⟨after, adaptExcept_eq_ok_iff.mpr reads, moved⟩

theorem follows_nextByte (shows : Shows failure finish plain source) :
    Follows failure finish (nextByte encoding plain) (nextByte encoding source) := by
  cases ahead : plain.rest with
  | nil =>
    obtain ⟨after, refused, same⟩ := nextByte_of_nil encoding shows ahead
    rw [refused, (nextByte_eq_error_iff shows.free).mpr ⟨ahead, rfl, rfl⟩, shows.finish]
    exact .error rfl same
  | cons byte rest =>
    obtain ⟨after, given, moved, fails⟩ := nextByte_of_cons encoding shows ahead
    rw [given, (nextByte_eq_ok_iff shows.free).mpr ⟨⟨rest, ahead.symm⟩, rfl⟩]
    exact .ok byte (shows.skip ahead moved fails)

theorem nextBytes_of_nil (encoding : Encoding) (shows : Shows failure finish plain source)
    (ended : plain.rest = []) (n : Nat) :
    ∃ after, nextBytes encoding (n + 1) source =
        .error ((DecodeError.truncated encoding finish).endingIn failure finish) after ∧
      position after = position plain := by
  obtain ⟨after, refused, same⟩ := nextByte_of_nil encoding shows ended
  exact ⟨after, bind_of_error refused, same⟩

theorem follows_nextBytes (shows : Shows failure finish plain source) (n : Nat) :
    Follows failure finish (nextBytes encoding n plain) (nextBytes encoding n source) := by
  induction n generalizing plain source with
  | zero => exact .ok [] shows
  | succ n ih =>
    refine (follows_nextByte shows).bind fun byte _ _ _ shows => ?_
    exact (ih shows).bind fun bytes _ _ _ shows => .ok (byte :: bytes) shows

namespace Utf8

theorem follows_continuations (shows : Shows failure finish plain source) (start n value : Nat) :
    Follows failure finish (continuations encoding start n value plain)
      (continuations encoding start n value source) := by
  induction n generalizing plain source value with
  | zero => exact .ok value shows
  | succ n ih =>
    cases ahead : plain.rest with
    | nil =>
      obtain ⟨after, refused, same⟩ := nextByte_of_nil encoding shows ahead
      have refused' : nextByte encoding plain = .error (.truncated encoding finish) plain :=
        (nextByte_eq_error_iff shows.free).mpr ⟨ahead, shows.finish ▸ rfl, rfl⟩
      rw [continuations, continuations, bind_of_error refused, bind_of_error refused']
      exact .error rfl same
    | cons byte rest =>
      obtain ⟨after, given, moved, fails⟩ := nextByte_of_cons encoding shows ahead
      have given' : nextByte encoding plain = .ok byte (plain.skip 1) :=
        (nextByte_eq_ok_iff shows.free).mpr ⟨⟨rest, ahead.symm⟩, rfl⟩
      rw [continuations, continuations, bind_of_ok given, bind_of_ok given']
      by_cases continues : isContinuation byte = true
      · rw [if_pos continues, if_pos continues]
        exact ih (shows.skip ahead moved fails) _
      · -- The byte given back stays ahead on both sides, and the fault is the sequence's own.
        obtain ⟨behind, back, shown⟩ := shows.putBack_eq ahead moved fails
        have back' := putBack_of_cons shows.free ahead
        rw [if_neg continues, if_neg continues, bind_of_ok back, bind_of_ok back']
        exact .error (DecodeError.endingIn_of_decided rfl failure).symm
          (shown.position_eq.trans plain.position_fetched.symm)

theorem follows_decode (shows : Shows failure finish plain source) :
    Follows failure finish (decode encoding plain) (decode encoding source) := by
  refine (follows_here shows).bind fun start _ _ _ shows => ?_
  refine (follows_nextByte shows).bind fun byte _ _ _ shows => ?_
  cases Lead.ofByte? byte with
  | none => exact follows_throw shows rfl
  | some lead =>
    refine (follows_continuations shows start _ _).bind fun value _ _ _ shows => ?_
    split
    · exact follows_throw shows rfl
    · exact follows_scalarOr shows rfl value

end Utf8

namespace Utf16

variable {order : ByteOrder}

theorem follows_nextUnit (shows : Shows failure finish plain source) :
    Follows failure finish (nextUnit order plain) (nextUnit order source) :=
  (follows_nextBytes shows 2).map order.join

theorem nextUnit_of_nil (order : ByteOrder) (shows : Shows failure finish plain source)
    (ended : plain.rest = []) :
    ∃ after, nextUnit order source =
        .error ((DecodeError.truncated (.utf16 order) finish).endingIn failure finish) after ∧
      position after = position plain := by
  obtain ⟨after, refused, same⟩ := nextBytes_of_nil (.utf16 order) shows ended 1
  exact ⟨after, map_eq_error_iff.mpr refused, same⟩

/-- The first half of a pair as the last unit is a fault of the end. -/
theorem loneSurrogate_isOpen (shows : Shows failure finish plain source) {unit : Nat}
    (high : Codespace.isHighSurrogate unit = true) (taken : 2 ≤ plain.rest.length)
    (ended : (plain.skip 2).rest = []) :
    (DecodeError.loneSurrogate (.utf16 order) plain.offset unit).isOpen finish = true := by
  rw [MemorySource.rest_skip, List.drop_eq_nil_iff] at ended
  rw [DecodeError.isOpen, high, Bool.true_and, beq_iff_eq, ← shows.finish, MemorySource.finish,
    Nat.le_antisymm ended taken]

/-- Where the other half of a pair is missing, the bytes show a lone surrogate, and the source may be
said to hold more only for the sake of its failure. -/
theorem follows_missingHalf (shows : Shows failure finish plain source) (ended : plain.rest = [])
    {lone : DecodeError} (lacks : lone.isOpen finish = true)
    {pair : Nat → EStateM DecodeError MemorySource Char} {pair' : Nat → EStateM DecodeError σ Char} :
    Follows failure finish
      ((ByteSource.more >>= fun answer =>
        if answer = true then nextUnit order >>= pair else throw lone) plain)
      ((ByteSource.more >>= fun answer =>
        if answer = true then nextUnit order >>= pair' else throw lone) source) := by
  obtain ⟨asked, more, shown⟩ := shows.hasNext_of_nil ended
  have more' := (MemorySource.hasNext_eq_end_iff shows.free).mpr ⟨ended, rfl⟩
  rw [bind_of_ok (more_of_hasNext more), bind_of_ok (more_of_hasNext more')]
  cases failure with
  | none => exact .error rfl shown.position_eq
  | some kind =>
    obtain ⟨after, refused, same⟩ := nextUnit_of_nil order shown ended
    change Follows _ _ (.error lone plain) ((nextUnit order >>= pair') asked)
    rw [bind_of_error refused]
    refine .error ?_ same
    rw [DecodeError.endingIn_of_open lacks, DecodeError.endingIn_of_open rfl]

theorem follows_decode (shows : Shows failure finish plain source) :
    Follows failure finish (decode order plain) (decode order source) := by
  refine (follows_here shows).bind fun start _ _ asked shows => ?_
  obtain ⟨rfl, rfl⟩ := here_eq_ok_iff.mp asked
  refine (follows_nextUnit shows).bind fun unit behind rest read shown => ?_
  obtain ⟨front, -, rfl⟩ := (nextUnit_eq_ok_iff shows.free).mp read
  have taken : 2 ≤ plain.rest.length := by simpa using front.length_le
  rw [MemorySource.position_of_free shows.free]
  split
  next high =>
    by_cases ended : (plain.skip 2).rest = []
    · exact follows_missingHalf shown ended (loneSurrogate_isOpen shows high taken ended)
    · refine (follows_more shown ended).bind fun answer _ _ asked shown => ?_
      obtain ⟨more, rfl⟩ := more_eq_ok_iff.mp asked
      rw [(MemorySource.hasNext_eq_true_iff shown.free).mpr ended] at more
      subst more
      refine (follows_nextUnit shown).bind fun low _ _ read shown' => ?_
      obtain ⟨front, -, rfl⟩ := (nextUnit_eq_ok_iff shown.free).mp read
      have decided : (DecodeError.loneSurrogate (.utf16 order) plain.offset unit).isOpen finish =
          false := by
        apply DecodeError.isOpen_loneSurrogate_of_lt
        have taken' : 2 ≤ (plain.skip 2).rest.length := by
          simpa using front.length_le
        rw [MemorySource.rest_skip, List.length_drop] at taken'
        rw [← shows.finish, MemorySource.finish]
        omega
      split
      · exact follows_scalarOr shown' decided _
      · exact follows_throw shown' decided
  next plainly =>
    split
    · refine follows_throw shown ?_
      rw [DecodeError.isOpen, Bool.eq_false_iff.mpr plainly, Bool.false_and]
    · exact follows_scalarOr shown rfl unit

end Utf16

namespace Utf32

variable {order : ByteOrder}

theorem follows_decode (shows : Shows failure finish plain source) :
    Follows failure finish (decode order plain) (decode order source) := by
  refine (follows_here shows).bind fun start _ _ asked shows => ?_
  obtain ⟨rfl, rfl⟩ := here_eq_ok_iff.mp asked
  refine ((follows_nextBytes shows 4).map order.join).bind fun value behind rest read shown => ?_
  obtain ⟨bytes, read, -⟩ := map_eq_ok_iff.mp read
  obtain ⟨front, length, rfl⟩ := (nextBytes_eq_ok_iff shows.free).mp read
  split
  · refine follows_throw shown (DecodeError.isOpen_loneSurrogate_of_lt ?_ _ _)
    have taken := front.length_le
    rw [MemorySource.position_of_free shows.free, ← shows.finish, MemorySource.finish]
    omega
  · exact follows_scalarOr shown rfl value

end Utf32

/-! ## Any encoding -/

theorem follows_decodeScalar (shows : Shows failure finish plain source) :
    Follows failure finish (decodeScalar encoding plain) (decodeScalar encoding source) := by
  cases encoding with
  | utf8 | utf8Bom => exact Utf8.follows_decode shows
  | utf16 order => exact Utf16.follows_decode shows
  | utf32 order => exact Utf32.follows_decode shows

theorem decodeScalar_of_nil (shows : Shows failure finish plain source) (ended : plain.rest = []) :
    ∃ after, decodeScalar encoding source =
        .error ((DecodeError.truncated encoding finish).endingIn failure finish) after ∧
      position after = position plain := by
  cases encoding with
  | utf8 | utf8Bom =>
    obtain ⟨after, refused, same⟩ := nextByte_of_nil _ shows ended
    exact ⟨after, bind_of_error (x := nextByte _) refused, same⟩
  | utf16 order =>
    obtain ⟨after, refused, same⟩ := Utf16.nextUnit_of_nil order shows ended
    exact ⟨after, bind_of_error (x := Utf16.nextUnit order) refused, same⟩
  | utf32 order =>
    obtain ⟨after, refused, same⟩ := nextBytes_of_nil (.utf32 order) shows ended 3
    refine ⟨after, bind_of_error (x := order.join <$> nextBytes _ 4) ?_, same⟩
    exact map_eq_error_iff.mpr refused

end Shows

end Codec

end UnicodeInput
