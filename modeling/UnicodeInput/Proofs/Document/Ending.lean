import UnicodeInput.Proofs.Codec.EndingRun
import UnicodeInput.Proofs.Document.Routes

/-! Buffers and documents from a stream. They come out as from the bytes that the stream delivers if it
just ends. If it ends in a failure, none is ever made: what the bytes decide to be wrong with them is
reported, and else the failure is. -/
namespace UnicodeInput

open Codec
open ByteSource (position)

/-- What becomes of a document if the bytes end at `finish` in a failure, or just end. -/
def Document.resultEndingIn (failure : Option FailureKind) (finish : Nat) :
    Except BuildError Document → Except BuildError Document
  | .error (.undecodable e) => .error (.undecodable (e.endingIn failure finish))
  | result =>
    match failure with
    | some kind => .error (.undecodable (.source (.failure finish kind)))
    | none => result

theorem Document.resultEndingIn_ne_ok {failure : Option FailureKind} (fails : failure.isSome = true)
    (finish : Nat) (result : Except BuildError Document) (document : Document) :
    resultEndingIn failure finish result ≠ .ok document := by
  obtain ⟨kind, rfl⟩ := Option.isSome_iff_exists.mp fails
  rcases result with (_ | _) | _ <;> exact nofun

section Shows

variable {σ : Type} [ByteSource σ] [MemoryLike σ] {failure : Option FailureKind} {finish : Nat}
  {plain : MemorySource} {source : σ} {encoding : Encoding}

theorem TextBuffer.settled_ofSource (shows : Shows failure finish plain source) :
    settled (ofSource encoding source) =
      Prod.map (resultEndingIn failure finish) id (settled (ofSource encoding plain)) := by
  have both := follows_readMark shows encoding
  unfold ofSource
  generalize mark : readMark encoding plain = result at both
  generalize mark' : readMark encoding source = result' at both
  cases both with
  | behind kept kept' =>
    obtain ⟨scalars, fault, left, run⟩ := Decodes.exists_of_free encoding kept.free
    rw [bind_of_ok mark, bind_of_ok mark', settled_foldScalars run kept, settled_foldScalars run kept',
      faultEndingIn_none, Prod.map, resultEndingIn_verdict]
    rfl
  | wrong same =>
    rw [bind_of_error mark, bind_of_error mark', settled, settled, same]
    rfl
  | failed failing kept ended same =>
    subst failing
    have run : Decodes encoding _ [] none _ :=
      .finished ((MemorySource.hasNext_eq_end_iff kept.free).mpr ⟨ended, rfl⟩)
    rw [bind_of_ok mark, bind_of_error mark', settled_foldScalars run kept, settled, same]
    rfl

theorem Document.settled_ofSource (shows : Shows failure finish plain source) (options : Options) :
    settled (ofSource encoding options source) =
      Prod.map (resultEndingIn failure finish) id (settled (ofSource encoding options plain)) := by
  obtain ⟨scalars, fault, left, run⟩ := Decodes.exists_of_free encoding shows.free
  obtain ⟨rest, run', same, -⟩ := run.endingIn shows
  rw [ofSource_eq run' (shows.length_le run), ofSource_eq run ((shows_self shows.free).length_le run),
    settled_leaving, settled_leaving, same]
  refine Prod.ext ?_ rfl
  cases fault with
  | some e => rfl
  | none =>
    -- A text alone is refused for one reason only, which a failure takes the place of.
    show (faultEndingIn failure finish none).elim _ _ = resultEndingIn failure finish _
    rw [Option.elim_none, ofScalars, document_foldl_add]
    cases failure <;> split <;> rfl

end Shows

/-- A decoder, a buffer and a document over a stream that has not been read do as over the bytes that it
delivers, and end at the same offset. If the stream ends in a failure, what would have come to the end
of the bytes ends in that failure instead, so nothing is taken for the whole that may not be. -/
theorem stream_decodes_like_bytes (encoding : Encoding) (events : List StreamEvent)
    (options : Document.Options) :
    let bytes := StreamSource.bytesAhead events
    let failure := StreamSource.failure? events
    let stream := StreamSource.ofEvents events
    let plain := MemorySource.ofBytes bytes
    (∃ (scalars : List Char) (fault : Option DecodeError),
      Decoder.Yields { source := plain, encoding } scalars fault ∧
      Decoder.Yields { source := stream, encoding } scalars
        (faultEndingIn failure bytes.length fault)) ∧
    (∀ n, position (Decoder.after n { source := stream, encoding }).source =
      position (Decoder.after n { source := plain, encoding }).source) ∧
    (∀ n e, Decoder.call n { source := stream, encoding } = some (.error e) →
      ∀ more, Decoder.after (n + 1 + more) { source := stream, encoding } =
        Decoder.after (n + 1) { source := stream, encoding }) ∧
    settled (TextBuffer.ofSource encoding stream) =
      Prod.map (resultEndingIn failure bytes.length) id
        (settled (TextBuffer.ofSource encoding plain)) ∧
    settled (Document.ofSource encoding options stream) =
      Prod.map (Document.resultEndingIn failure bytes.length) id
        (settled (Document.ofSource encoding options plain)) ∧
    (failure.isSome → ∀ rest,
      (∀ buffer, TextBuffer.ofSource encoding stream ≠ .ok buffer rest) ∧
      ∀ document, Document.ofSource encoding options stream ≠ .ok document rest) := by
  intro bytes failure stream plain
  have shows : Shows failure bytes.length plain stream := shows_ofEvents events
  obtain ⟨scalars, fault, left, run⟩ := Decodes.exists_of_free encoding shows.free
  obtain ⟨rest, run', -, done, alike⟩ := run.endingIn shows
  have buffer : settled (TextBuffer.ofSource encoding stream) = _ := TextBuffer.settled_ofSource shows
  have document : settled (Document.ofSource encoding options stream) = _ :=
    Document.settled_ofSource shows options
  refine ⟨⟨scalars, fault, run.yields (run.spent rfl), run'.yields done⟩, alike,
    fun n e given => Decoder.after_of_call_error given, buffer, document, fun fails rest => ⟨?_, ?_⟩⟩
  · intro content made
    rw [made] at buffer
    exact Codec.resultEndingIn_ne_ok fails _ _ _ (congrArg Prod.fst buffer).symm
  · intro content made
    rw [made] at document
    exact Document.resultEndingIn_ne_ok fails _ _ _ (congrArg Prod.fst document).symm

-- The first half of a pair is lone where the bytes just end, and undecided where they could not be had.
example :
    settled (TextBuffer.ofSource (.utf16 .big) (MemorySource.ofBytes [0xFE, 0xFF, 0xD8, 0x00])) =
      (.error (.loneSurrogate (.utf16 .big) 2 0xD800), 4) ∧
    settled (TextBuffer.ofSource (.utf16 .big) (StreamSource.ofEvents
      [.byte 0xFE, .byte 0xFF, .interrupted, .byte 0xD8, .byte 0x00, .failure .timedOut])) =
      (.error (.source (.failure 4 .timedOut)), 4) := by decide

end UnicodeInput
