import UnicodeInput.Codec.Mark
import UnicodeInput.Proofs.Codec.Run

/-! A byte given back is as good as one that has not been read. Whoever reads learns of a source in memory
which bytes are ahead and where they are, and not which of them is held in the place for a byte given back.
Two sources with the same bytes ahead are read side by side. No reader gives a byte back but the one it has
just taken, and then the place is free on both sides, so all answers are the same but for offsets, and
offsets differ as they did in the beginning. -/
namespace UnicodeInput

/-- The same refusal with its offset moved. -/
def SourceError.relocate (f : Nat → Nat) : SourceError → SourceError
  | exhausted offset => exhausted (f offset)
  | pushbackTaken offset => pushbackTaken (f offset)
  | failure offset kind => failure (f offset) kind

def DecodeError.relocate (f : Nat → Nat) : DecodeError → DecodeError
  | truncated encoding offset => truncated encoding (f offset)
  | malformed encoding offset => malformed encoding (f offset)
  | loneSurrogate encoding offset unit => loneSurrogate encoding (f offset) unit
  | wrongMark encoding expected offset => wrongMark encoding expected (f offset)
  | source error => source (error.relocate f)

/-- The same cause, at offsets that are the same to `f` on the one side and to `g` on the other. -/
def DecodeError.Matches (f g : Nat → Nat) (e e' : DecodeError) : Prop := e.relocate f = e'.relocate g

theorem SourceError.relocate_id (e : SourceError) : e.relocate id = e := by
  cases e <;> rfl

theorem DecodeError.relocate_id (e : DecodeError) : e.relocate id = e := by
  cases e with
  | source error => exact congrArg DecodeError.source error.relocate_id
  | _ => rfl

/-! ## What is ahead, and where -/

namespace MemorySource

/-- The bytes that reading will give, the one held first. -/
def ahead (source : MemorySource) : List UInt8 := source.pending.toList ++ source.rest

/-- The offset behind the next byte. -/
def behind (source : MemorySource) : Nat :=
  match source.pending with
  | some _ => source.offset
  | none => source.offset + 1

variable {source : MemorySource} {byte : UInt8} {bytes : List UInt8}

theorem hasNext_eq_ahead (source : MemorySource) : source.hasNext = !source.ahead.isEmpty := by
  obtain ⟨rest, offset, pending⟩ := source
  cases pending <;> rfl

theorem deliverable_eq_ahead (source : MemorySource) : source.deliverable = source.ahead.length := by
  rw [ahead, List.length_append]
  rfl

theorem position_eq_behind (source : MemorySource) : source.position = source.behind - 1 := by
  obtain ⟨rest, offset, pending⟩ := source
  cases pending <;> rfl

theorem read_of_ahead_nil (ended : source.ahead = []) :
    source.read = .error (.exhausted source.position) source := by
  obtain ⟨rest, offset, pending⟩ := source
  cases pending with
  | some held => cases ended
  | none =>
    obtain rfl : rest = [] := ended
    rfl

theorem read_of_ahead_cons (follows : source.ahead = byte :: bytes) :
    source.read = .ok byte { rest := bytes, offset := source.behind } := by
  obtain ⟨rest, offset, pending⟩ := source
  cases pending with
  | some held =>
    obtain ⟨rfl, rfl⟩ := List.cons.inj follows
    rfl
  | none =>
    obtain rfl : rest = byte :: bytes := follows
    rfl

end MemorySource

namespace Codec

/-! ## Requests -/

inductive Request where
  | more
  | read
  | readMark (encoding : Encoding)
  | decode (encoding : Encoding)
  deriving DecidableEq, Repr

inductive Reply where
  | more (answer : Bool)
  | byte (result : Except SourceError UInt8)
  | mark (result : Except DecodeError Unit)
  | scalar (item : Item)

def Reply.relocate (f : Nat → Nat) : Reply → Reply
  | more answer => more answer
  | byte result => byte (result.mapError (SourceError.relocate f))
  | mark result => mark (result.mapError (DecodeError.relocate f))
  | scalar item => scalar (item.mapError (DecodeError.relocate f))

structure Observation where
  reply : Reply
  /-- The offset of the next byte, after the request. -/
  position : Nat
  /-- How many bytes can still be read, after the request. -/
  left : Nat

def Observation.relocate (f : Nat → Nat) (seen : Observation) : Observation :=
  { seen with reply := seen.reply.relocate f, position := f seen.position }

section Requests

variable {σ : Type} [ByteSource σ]

def ask : Request → σ → Reply × σ
  | .more, source => (.more (ByteSource.hasNext source).1, (ByteSource.hasNext source).2)
  | .read, source => (.byte (apart (ByteSource.read source)).1, (apart (ByteSource.read source)).2)
  | .readMark encoding, source =>
    (.mark (apart (readMark encoding source)).1, (apart (readMark encoding source)).2)
  | .decode encoding, source =>
    (.scalar (apart (decodeScalar encoding source)).1, (apart (decodeScalar encoding source)).2)

def askEach : List Request → σ → List Observation
  | [], _ => []
  | request :: requests, source =>
    let (reply, after) := ask request source
    { reply, position := ByteSource.position after, left := ByteSource.deliverable after } ::
      askEach requests after

end Requests

/-! ## Side by side -/

/-- Two sources with the same bytes ahead, the offsets from there on being the same to `f` on the one side
and to `g` on the other. -/
structure Alike (f g : Nat → Nat) (source other : MemorySource) : Prop where
  ahead : source.ahead = other.ahead
  offsets : ∀ n, f (source.behind + n - 1) = g (other.behind + n - 1)

/-- Readers give the same on the two sides, but for the offset of an error. -/
abbrev Matched (f g : Nat → Nat) {α : Type} :
    EStateM.Result DecodeError MemorySource α → EStateM.Result DecodeError MemorySource α → Prop :=
  SideBySide (Alike f g) (DecodeError.Matches f g)

variable {f g : Nat → Nat} {source other : MemorySource} {encoding : Encoding} {α : Type}

namespace Alike

theorem position (alike : Alike f g source other) : f source.position = g other.position := by
  rw [MemorySource.position_eq_behind, MemorySource.position_eq_behind]
  exact alike.offsets 0

theorem hasNext (alike : Alike f g source other) : source.hasNext = other.hasNext := by
  rw [MemorySource.hasNext_eq_ahead, MemorySource.hasNext_eq_ahead, alike.ahead]

theorem deliverable (alike : Alike f g source other) : source.deliverable = other.deliverable := by
  rw [MemorySource.deliverable_eq_ahead, MemorySource.deliverable_eq_ahead, alike.ahead]

theorem malformed (alike : Alike f g source other) (encoding : Encoding) :
    DecodeError.Matches f g (.malformed encoding source.position) (.malformed encoding other.position) :=
  congrArg (DecodeError.malformed encoding) alike.position

theorem loneSurrogate (alike : Alike f g source other) (encoding : Encoding) (unit : Nat) :
    DecodeError.Matches f g (.loneSurrogate encoding source.position unit)
      (.loneSurrogate encoding other.position unit) :=
  congrArg (DecodeError.loneSurrogate encoding · unit) alike.position

theorem wrongMark (alike : Alike f g source other) (encoding : Encoding) (expected : UInt8) :
    DecodeError.Matches f g (.wrongMark encoding expected source.position)
      (.wrongMark encoding expected other.position) :=
  congrArg (DecodeError.wrongMark encoding expected) alike.position

/-- Both give the same byte, or neither has one. -/
theorem read_cases (alike : Alike f g source other) :
    (source.read = .error (.exhausted source.position) source ∧
      other.read = .error (.exhausted other.position) other) ∨
    ∃ byte bytes, source.read = .ok byte { rest := bytes, offset := source.behind } ∧
      other.read = .ok byte { rest := bytes, offset := other.behind } := by
  cases follows : other.ahead with
  | nil =>
    exact .inl ⟨MemorySource.read_of_ahead_nil (alike.ahead.trans follows),
      MemorySource.read_of_ahead_nil follows⟩
  | cons byte bytes =>
    exact .inr ⟨byte, bytes, MemorySource.read_of_ahead_cons (alike.ahead.trans follows),
      MemorySource.read_of_ahead_cons follows⟩

/-- The two without their next byte. -/
theorem next (alike : Alike f g source other) (bytes : List UInt8) :
    Alike f g { rest := bytes, offset := source.behind } { rest := bytes, offset := other.behind } where
  ahead := rfl
  offsets n := by
    have further := alike.offsets (n + 1)
    change f (source.behind + 1 + n - 1) = g (other.behind + 1 + n - 1)
    rwa [Nat.add_right_comm, Nat.add_right_comm other.behind]

/-- The two with their next byte held. -/
theorem held (alike : Alike f g source other) (byte : UInt8) (bytes : List UInt8) :
    Alike f g { rest := bytes, offset := source.behind, pending := some byte }
      { rest := bytes, offset := other.behind, pending := some byte } where
  ahead := rfl
  offsets := alike.offsets

end Alike

theorem Matched.taken_apart {x y : EStateM.Result DecodeError MemorySource α} (both : Matched f g x y) :
    (apart x).1.mapError (DecodeError.relocate f) = (apart y).1.mapError (DecodeError.relocate g) ∧
      Alike f g (apart x).2 (apart y).2 := by
  cases both with
  | ok a alike => exact ⟨rfl, alike⟩
  | error same alike => exact ⟨congrArg Except.error same, alike⟩

theorem matched_more (alike : Alike f g source other) :
    Matched f g ((ByteSource.more : EStateM DecodeError MemorySource Bool) source)
      ((ByteSource.more : EStateM DecodeError MemorySource Bool) other) := by
  change Matched f g (.ok source.hasNext source) (.ok other.hasNext other)
  rw [alike.hasNext]
  exact .ok _ alike

/-- A read fails for want of bytes only, whatever becomes of that. -/
theorem matched_read (alike : Alike f g source other) {cause : SourceError → DecodeError}
    (ended : DecodeError.Matches f g (cause (.exhausted source.position))
      (cause (.exhausted other.position))) :
    Matched f g (EStateM.adaptExcept cause ByteSource.read source)
      (EStateM.adaptExcept cause ByteSource.read other) := by
  change Matched f g (EStateM.adaptExcept cause MemorySource.read source)
    (EStateM.adaptExcept cause MemorySource.read other)
  unfold EStateM.adaptExcept
  rcases alike.read_cases with ⟨empty, empty'⟩ | ⟨byte, bytes, given, given'⟩
  · rw [empty, empty']
    exact .error ended alike
  · rw [given, given']
    exact .ok byte (alike.next bytes)

theorem matched_nextByte (alike : Alike f g source other) :
    Matched f g (nextByte encoding source) (nextByte encoding other) :=
  matched_read alike (congrArg (DecodeError.truncated encoding) alike.position)

/-- The byte just taken is given back on both sides, and the two are as before. -/
theorem matched_putBack (alike : Alike f g source other) {cause : SourceError → DecodeError}
    {byte : UInt8} {after beyond : MemorySource}
    (taken : EStateM.adaptExcept cause ByteSource.read source = .ok byte after)
    (taken' : EStateM.adaptExcept cause ByteSource.read other = .ok byte beyond) :
    Matched f g (putBack byte after) (putBack byte beyond) := by
  rw [adaptExcept_eq_ok_iff] at taken taken'
  change source.read = _ at taken
  change other.read = _ at taken'
  rcases alike.read_cases with ⟨empty, -⟩ | ⟨next, bytes, given, given'⟩
  · rw [empty] at taken
    cases taken
  · rw [given] at taken
    rw [given'] at taken'
    cases taken
    cases taken'
    exact .ok () (alike.held byte bytes)

theorem matched_nextBytes (alike : Alike f g source other) (n : Nat) :
    Matched f g (nextBytes encoding n source) (nextBytes encoding n other) := by
  induction n generalizing source other with
  | zero => exact .ok [] alike
  | succ n ih =>
    refine (matched_nextByte alike).bind fun byte _ _ _ _ alike => ?_
    exact (ih alike).bind fun bytes _ _ _ _ alike => .ok (byte :: bytes) alike

namespace Utf8

theorem matched_continuations (alike : Alike f g source other) {start start' : Nat}
    (same : f start = g start') (n value : Nat) :
    Matched f g (continuations encoding start n value source)
      (continuations encoding start' n value other) := by
  induction n generalizing source other value with
  | zero => exact .ok value alike
  | succ n ih =>
    refine (matched_nextByte alike).bind fun byte after beyond taken taken' alike' => ?_
    split
    · exact ih alike' _
    · -- The byte was taken just now, so the place for it is free even where it was held before.
      refine (matched_putBack alike taken taken').bind fun _ _ _ _ _ alike => ?_
      exact .error (congrArg (DecodeError.malformed encoding) same) alike

theorem matched_decode (alike : Alike f g source other) :
    Matched f g (decode encoding source) (decode encoding other) := by
  refine SideBySide.bind (x := nextByte encoding) (y := nextByte encoding) (matched_nextByte alike) ?_
  intro byte _ _ _ _ behind
  cases Lead.ofByte? byte with
  | none => exact .error (alike.malformed encoding) behind
  | some lead =>
    refine (matched_continuations behind alike.position _ _).bind fun value _ _ _ _ behind => ?_
    split
    · exact .error (alike.malformed encoding) behind
    · exact sideBySide_scalarOr behind (alike.malformed encoding) value

end Utf8

theorem Utf16.matched_decode {order : ByteOrder} (alike : Alike f g source other) :
    Matched f g (decode order source) (decode order other) := by
  refine SideBySide.bind (x := nextUnit order) (y := nextUnit order)
    ((matched_nextBytes alike 2).map order.join) fun unit _ _ _ _ behind => ?_
  split
  · refine (matched_more behind).bind fun answer _ _ _ _ behind => ?_
    split
    · refine ((matched_nextBytes behind 2).map order.join).bind fun low _ _ _ _ behind => ?_
      split
      · exact sideBySide_scalarOr behind (alike.loneSurrogate _ unit) _
      · exact .error (alike.loneSurrogate _ unit) behind
    · exact .error (alike.loneSurrogate _ unit) behind
  · split
    · exact .error (alike.loneSurrogate _ unit) behind
    · exact sideBySide_scalarOr behind (alike.malformed _) unit

theorem Utf32.matched_decode {order : ByteOrder} (alike : Alike f g source other) :
    Matched f g (decode order source) (decode order other) := by
  refine SideBySide.bind (x := order.join <$> nextBytes (.utf32 order) 4)
    (y := order.join <$> nextBytes (.utf32 order) 4)
    ((matched_nextBytes alike 4).map order.join) fun unit _ _ _ _ behind => ?_
  split
  · exact .error (alike.loneSurrogate _ unit) behind
  · exact sideBySide_scalarOr behind (alike.malformed _) unit

theorem matched_decodeScalar (encoding : Encoding) (alike : Alike f g source other) :
    Matched f g (decodeScalar encoding source) (decodeScalar encoding other) := by
  cases encoding with
  | utf8 | utf8Bom => exact Utf8.matched_decode alike
  | utf16 order => exact Utf16.matched_decode alike
  | utf32 order => exact Utf32.matched_decode alike

theorem matched_expectBytes (alike : Alike f g source other) (expected : List UInt8) :
    Matched f g (expectBytes encoding expected source) (expectBytes encoding expected other) := by
  induction expected generalizing source other with
  | nil => exact .ok () alike
  | cons byte expected ih =>
    have reads : ByteSource.read source = source.read := rfl
    have reads' : ByteSource.read other = other.read := rfl
    unfold expectBytes
    rw [reads, reads']
    rcases alike.read_cases with ⟨empty, empty'⟩ | ⟨got, bytes, given, given'⟩
    · rw [empty, empty']
      exact .error (alike.wrongMark encoding byte) alike
    · rw [given, given']
      dsimp only
      split
      · exact ih (alike.next bytes)
      · exact .error (alike.wrongMark encoding byte) (alike.next bytes)

theorem matched_readMark (encoding : Encoding) (alike : Alike f g source other) :
    Matched f g (readMark encoding source) (readMark encoding other) := by
  cases encoding with
  | utf8 => exact .ok () alike
  | utf8Bom =>
    refine (matched_more alike).bind fun answer after beyond _ _ alike => ?_
    split
    · have ended : DecodeError.Matches f g (.source (.exhausted after.position))
          (.source (.exhausted beyond.position)) :=
        congrArg (fun n => DecodeError.source (.exhausted n)) alike.position
      refine (matched_read alike ended).bind fun first _ _ taken taken' alike' => ?_
      split
      · exact matched_expectBytes alike' _
      · exact matched_putBack alike taken taken'
    · exact .ok () alike
  | utf16 order => exact matched_expectBytes alike _
  | utf32 order => exact matched_expectBytes alike _

/-! ## Runs -/

theorem Alike.ask (alike : Alike f g source other) (request : Request) :
    (ask request source).1.relocate f = (ask request other).1.relocate g ∧
      Alike f g (ask request source).2 (ask request other).2 := by
  cases request with
  | more => exact ⟨congrArg Reply.more alike.hasNext, alike⟩
  | read =>
    have ended : SourceError.exhausted (f source.position) = .exhausted (g other.position) :=
      congrArg SourceError.exhausted alike.position
    change Reply.byte ((apart source.read).1.mapError _) = .byte ((apart other.read).1.mapError _) ∧
      Alike f g (apart source.read).2 (apart other.read).2
    rcases alike.read_cases with ⟨empty, empty'⟩ | ⟨byte, bytes, given, given'⟩
    · rw [empty, empty']
      exact ⟨congrArg (fun e => Reply.byte (.error e)) ended, alike⟩
    · rw [given, given']
      exact ⟨rfl, alike.next bytes⟩
  | readMark encoding =>
    obtain ⟨same, after⟩ := (matched_readMark encoding alike).taken_apart
    exact ⟨congrArg Reply.mark same, after⟩
  | decode encoding =>
    obtain ⟨same, after⟩ := (matched_decodeScalar encoding alike).taken_apart
    exact ⟨congrArg Reply.scalar same, after⟩

theorem Alike.askEach (alike : Alike f g source other) (requests : List Request) :
    (askEach requests source).map (Observation.relocate f) =
      (askEach requests other).map (Observation.relocate g) := by
  induction requests generalizing source other with
  | nil => rfl
  | cons request requests ih =>
    obtain ⟨same, after⟩ := alike.ask request
    have position : f (ByteSource.position (Codec.ask request source).2) =
        g (ByteSource.position (Codec.ask request other).2) := after.position
    have left : ByteSource.deliverable (Codec.ask request source).2 =
        ByteSource.deliverable (Codec.ask request other).2 := after.deliverable
    simp only [Codec.askEach, List.map_cons, Observation.relocate, same, position, left, ih after]

theorem Observation.relocate_id (seen : Observation) : seen.relocate id = seen := by
  obtain ⟨reply, position, left⟩ := seen
  refine congrArg (Observation.mk · position left) ?_
  match reply with
  | .more _ | .byte (.ok _) | .mark (.ok _) | .scalar (.ok _) => rfl
  | .byte (.error e) => exact congrArg (fun e => Reply.byte (.error e)) e.relocate_id
  | .mark (.error e) => exact congrArg (fun e => Reply.mark (.error e)) e.relocate_id
  | .scalar (.error e) => exact congrArg (fun e => Reply.scalar (.error e)) e.relocate_id

theorem map_relocate_id (seen : List Observation) : seen.map (Observation.relocate id) = seen := by
  rw [List.map_congr_left fun each _ => each.relocate_id, List.map_id']

/-- Any byte given back where one was taken is read as if the source began with it, each offset being
larger by the bytes before it. At the start of a source there is no offset to go back to, and then all but
the offsets is the same. -/
theorem given_back_reads_as_new (rest : List UInt8) (p : Nat) (x : UInt8) :
    ∃ held, ByteSource.unread x ({ rest, offset := p } : MemorySource) = .ok () held ∧
      match p with
      | 0 => ∀ requests, (askEach requests held).map (Observation.relocate fun _ => 0) =
          (askEach requests (MemorySource.ofBytes (x :: rest))).map (Observation.relocate fun _ => 0)
      | d + 1 => ByteSource.position held = d ∧ ∀ requests, askEach requests held =
          (askEach requests (MemorySource.ofBytes (x :: rest))).map (Observation.relocate (· + d)) := by
  refine ⟨{ rest, offset := p, pending := some x }, rfl, ?_⟩
  cases p with
  | zero =>
    -- The byte held and the one behind it are both at offset 0, so no shift relates the two sides.
    intro requests
    have alike : Alike (fun _ => 0) (fun _ => 0) { rest, offset := 0, pending := some x }
        (MemorySource.ofBytes (x :: rest)) := ⟨rfl, fun _ => rfl⟩
    exact alike.askEach requests
  | succ d =>
    have alike : Alike id (· + d) { rest, offset := d + 1, pending := some x }
        (MemorySource.ofBytes (x :: rest)) := by
      refine ⟨rfl, fun n => ?_⟩
      change d + 1 + n - 1 = 0 + 1 + n - 1 + d
      omega
    refine ⟨rfl, fun requests => ?_⟩
    rw [← alike.askEach requests, map_relocate_id]

example : askEach [.decode .utf8, .read]
    ({ rest := [0x41], offset := 2, pending := some 0xC3 } : MemorySource) =
      [{ reply := .scalar (.error (.malformed .utf8 1)), position := 2, left := 1 },
        { reply := .byte (.ok 0x41), position := 3, left := 0 }] := by
  rfl

end Codec

end UnicodeInput
