import UnicodeInput.Proofs.Codec.Whole

/-! Writing bytes in another encoding. The loop that copies scalar values is a fold over them like any
other, and every fold over a whole input is decoding with something done to the scalar values after. So
to transcode is to decode and then to encode, and it fails where decoding fails. What decoding gives does
not depend on the encoding it came from, which makes every way round through other encodings the direct
one. -/
namespace UnicodeInput.Codec

variable {β : Type} {encoding : Encoding} {bytes : List UInt8} {scalars : List Char}

/-! ## Folds over a whole input -/

/-- A fold over a whole input folds what the input decodes to, and fails as decoding does. -/
theorem foldWhole_eq_map (f : β → Char → β) (acc : β) :
    foldWhole encoding bytes f acc =
      (fun scalars => scalars.foldl f acc) <$> decode encoding bytes := by
  cases marked : afterMark encoding bytes with
  | error e =>
    rw [decode, foldWhole, foldWhole, marked]
    rfl
  | ok source =>
    obtain ⟨scalars, fault, rest, run⟩ := Decodes.exists_of_free encoding (pending_of_afterMark marked)
    rw [foldWhole_of_run marked run, decode_of_run marked run, map_verdict]

/-! ## Copying -/

theorem copyUpTo_eq {σ : Type} [ByteSource σ] (input output : Encoding) (n : Nat) (sink : Array UInt8)
    (source : σ) :
    copyUpTo input output n sink source =
      match Decoder.foldUpTo (fun (sink : Array UInt8) c => sink ++ encodeScalar output c) n sink
        { source, encoding := input } with
      | .ok sink decoder => .ok sink decoder.source
      | .error e decoder => .error e decoder.source := by
  induction n generalizing sink source with
  | zero => rfl
  | succ n ih =>
    rcases asked : ByteSource.hasNext source with ⟨answer, behind⟩
    rw [copyUpTo, bind_of_ok (more_of_hasNext asked)]
    simp only [Decoder.foldUpTo, Decoder.next, asked, Bool.false_eq_true, if_false]
    cases answer with
    | false => rfl
    | true =>
      rw [if_pos rfl]
      cases decoded : decodeScalar input behind with
      | error e after => simp only [bind_of_error decoded, decoded]
      | ok c after => simp only [bind_of_ok decoded, decoded, ih]

theorem toList_foldl_append (output : Encoding) (sink : Array UInt8) :
    (scalars.foldl (fun (sink : Array UInt8) c => sink ++ encodeScalar output c) sink).toList =
      sink.toList ++ scalars.flatMap (encodeScalar output) := by
  induction scalars generalizing sink with
  | nil => simp
  | cons c scalars ih => simp [ih]

/-- Transcoding is decoding and then encoding. -/
theorem transcode_eq (input output : Encoding) (bytes : List UInt8) :
    transcode input output bytes = encode output <$> decode input bytes := by
  have copies : transcode input output bytes =
      Array.toList <$> foldWhole input bytes
        (fun (sink : Array UInt8) c => sink ++ encodeScalar output c) (writeMark output #[]) := by
    unfold transcode foldWhole
    cases afterMark input bytes with
    | error e => rfl
    | ok source =>
      simp only [bind, Except.bind, copyUpTo_eq, foldScalars, Decoder.steps]
      cases Decoder.foldUpTo (fun (sink : Array UInt8) c => sink ++ encodeScalar output c)
        (ByteSource.deliverable source + 1) (writeMark output #[]) { source, encoding := input } <;> rfl
  rw [copies, foldWhole_eq_map]
  cases decode input bytes with
  | error e => rfl
  | ok scalars =>
    simp [Functor.map, Except.map, toList_foldl_append, writeMark, encode]

/-! ## Ways round -/

theorem decode_encode (encoding : Encoding) (scalars : List Char) :
    decode encoding (encode encoding scalars) = .ok scalars := by
  obtain ⟨mark, content⟩ := eq_encode_iff.mp (rfl : encode encoding scalars = _)
  exact decode_eq_ok_iff.mpr ⟨_, afterMark_eq_ok_iff.mpr (.inl ⟨mark, rfl⟩), content⟩

/-- What decodes is what encoding gives back, but for a mark that was left out. -/
theorem encode_of_decode (decoded : decode encoding bytes = .ok scalars) :
    encode encoding scalars =
      if encoding = .utf8Bom ∧ ¬ [0xEF, 0xBB, 0xBF] <+: bytes then [0xEF, 0xBB, 0xBF] ++ bytes
      else bytes := by
  obtain ⟨source, marked, content⟩ := decode_eq_ok_iff.mp decoded
  rcases afterMark_eq_ok_iff.mp marked with ⟨mark, rfl⟩ | ⟨rfl, unmarked, rfl⟩
  · have marked : ¬ (encoding = .utf8Bom ∧ ¬ [0xEF, 0xBB, 0xBF] <+: bytes) := by
      rintro ⟨rfl, unmarked⟩
      exact unmarked mark
    rw [if_neg marked]
    exact (eq_encode_iff.mpr ⟨mark, content⟩).symm
  · rw [if_pos ⟨rfl, unmarked⟩, encode, ← content]
    rfl

/-- Transcoding fails for the input alone, whatever the output. Going through another encoding is the
same as going straight, and going back gives the input, with its mark if it had none. -/
theorem transcode_through (input middle output : Encoding) (bytes : List UInt8) :
    (∀ e, transcode input middle bytes = .error e ↔ transcode input output bytes = .error e) ∧
    ∀ between, transcode input middle bytes = .ok between →
      transcode middle output between = transcode input output bytes ∧
      transcode middle input between =
        .ok (if input = .utf8Bom ∧ ¬ [0xEF, 0xBB, 0xBF] <+: bytes then [0xEF, 0xBB, 0xBF] ++ bytes
          else bytes) := by
  simp only [transcode_eq]
  cases decoded : decode input bytes with
  | error e =>
    refine ⟨fun e' => Iff.rfl, fun between given => ?_⟩
    cases given
  | ok scalars =>
    constructor
    · intro e
      constructor <;> intro given <;> cases given
    · intro between given
      obtain rfl : encode middle scalars = between := Except.ok.inj given
      rw [decode_encode]
      exact ⟨rfl, congrArg Except.ok (encode_of_decode decoded)⟩

/-- A scalar value above the first plane, in UTF-8 without the mark: it comes back with one. -/
theorem transcode_through_unmarked :
    transcode .utf8Bom (.utf16 .little) [0xF0, 0x9F, 0x98, 0x80] =
      .ok [0xFF, 0xFE, 0x3D, 0xD8, 0x00, 0xDE] ∧
    transcode (.utf16 .little) (.utf32 .big) [0xFF, 0xFE, 0x3D, 0xD8, 0x00, 0xDE] =
      transcode .utf8Bom (.utf32 .big) [0xF0, 0x9F, 0x98, 0x80] ∧
    transcode (.utf16 .little) .utf8Bom [0xFF, 0xFE, 0x3D, 0xD8, 0x00, 0xDE] =
      .ok [0xEF, 0xBB, 0xBF, 0xF0, 0x9F, 0x98, 0x80] := by
  have straight : transcode .utf8Bom (.utf16 .little) [0xF0, 0x9F, 0x98, 0x80] =
      .ok [0xFF, 0xFE, 0x3D, 0xD8, 0x00, 0xDE] := rfl
  exact ⟨straight, (transcode_through .utf8Bom (.utf16 .little) (.utf32 .big) _).2 _ straight⟩

end UnicodeInput.Codec
