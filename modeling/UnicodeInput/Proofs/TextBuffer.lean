import UnicodeInput.Proofs.Document.Routes

/-! What a text buffer shows and what it encodes. A U+FEFF at its front is left out of both, once, and an
encoding writes its own mark instead. So a buffer that is encoded and decoded comes back without that
scalar value, and bytes that are decoded and encoded come back unless they hold it behind their mark. -/
namespace UnicodeInput.TextBuffer

open Codec

variable {encoding : Encoding} {bytes : List UInt8} {buffer : TextBuffer} {scalars : List Char}

theorem withoutMark_of_head?_eq (marked : buffer.toList.head? = some Codespace.markScalar) :
    buffer.toList = Codespace.markScalar :: buffer.withoutMark := by
  unfold withoutMark
  cases content : buffer.toList with
  | nil =>
    rw [content] at marked
    cases marked
  | cons first rest =>
    rw [content] at marked
    obtain rfl := Option.some.inj marked
    rfl

theorem withoutMark_of_head?_ne (unmarked : buffer.toList.head? ≠ some Codespace.markScalar) :
    buffer.withoutMark = buffer.toList := by
  unfold withoutMark
  cases content : buffer.toList with
  | nil => rfl
  | cons first rest =>
    rw [content] at unmarked
    exact if_neg fun same => unmarked (congrArg some same)

theorem withoutMark_eq (buffer : TextBuffer) :
    buffer.withoutMark =
      if buffer.toList.head? = some Codespace.markScalar then buffer.toList.tail
      else buffer.toList := by
  split
  next marked => rw [withoutMark_of_head?_eq marked, List.tail_cons]
  next unmarked => exact withoutMark_of_head?_ne unmarked

/-! ## Decoding into a buffer -/

theorem decode_of_ofBytes (made : ofBytes encoding bytes = .ok buffer) :
    Codec.decode encoding bytes = .ok buffer.toList := by
  rw [← toList_ofBytes, made]
  rfl

theorem exists_ofBytes (decoded : Codec.decode encoding bytes = .ok scalars) :
    ∃ buffer, ofBytes encoding bytes = .ok buffer ∧ buffer.toList = scalars := by
  rw [← toList_ofBytes] at decoded
  cases made : ofBytes encoding bytes with
  | error e =>
    rw [made] at decoded
    cases decoded
  | ok buffer =>
    rw [made] at decoded
    exact ⟨buffer, rfl, Except.ok.inj decoded⟩

/-! ## Texts -/

theorem foldl_push_eq (sink : String) (scalars : List Char) :
    scalars.foldl String.push sink = sink ++ String.ofList scalars := by
  induction scalars generalizing sink with
  | nil => simp
  | cons c scalars ih =>
    rw [List.foldl_cons, ih, String.push_eq_append, String.append_assoc, ← String.ofList_cons]

/-- The bytes of a text are those of its characters. -/
theorem toByteArray_ofList (scalars : List Char) :
    (String.ofList scalars).toByteArray.data.toList = Codec.encode .utf8 scalars :=
  Utf8.toByteArray_ofList scalars

/-! ## There and back -/

/-- Bytes that decode to text encode from it as they were, with the mark if it was left out. -/
theorem encode_of_unmarked (made : ofBytes encoding bytes = .ok buffer)
    (unmarked : buffer.toList.head? ≠ some Codespace.markScalar) :
    buffer.encode encoding =
      if encoding = .utf8Bom ∧ ¬ [0xEF, 0xBB, 0xBF] <+: bytes then [0xEF, 0xBB, 0xBF] ++ bytes
      else bytes := by
  rw [TextBuffer.encode, withoutMark_of_head?_ne unmarked]
  exact encode_of_decode (decode_of_ofBytes made)

/-- A U+FEFF that is text, behind the mark if there is one, is not written again. -/
theorem encode_of_marked (made : ofBytes encoding bytes = .ok buffer)
    (marked : buffer.toList.head? = some Codespace.markScalar) :
    ∃ rest, bytes = encoding.mark ++ encodeScalar encoding Codespace.markScalar ++ rest ∧
      buffer.encode encoding = encoding.mark ++ rest := by
  refine ⟨buffer.withoutMark.flatMap (encodeScalar encoding), ?_, rfl⟩
  have decoded := decode_of_ofBytes made
  rw [withoutMark_of_head?_eq marked, decode_ok_iff_encode] at decoded
  rcases decoded with whole | ⟨rfl, absent, whole⟩
  · rw [whole, Codec.encode, List.flatMap_cons, List.append_assoc]
  · -- Text that begins with U+FEFF begins with the bytes of the mark.
    rw [whole] at absent
    exact absurd (List.prefix_append ..) absent

/-- A buffer shows, writes, gives up and encodes its content without one U+FEFF at the front, and decoding
what it encodes gives that. Where a buffer was decoded from bytes, encoding gives these, with the mark
where it was left out, or the bytes without those of a U+FEFF that follows the mark. -/
theorem shows_and_encodes_without_mark (buffer : TextBuffer) (encoding : Encoding) :
    let text := if buffer.toList.head? = some Codespace.markScalar then buffer.toList.tail
      else buffer.toList
    (∃ decoded, ofBytes encoding (buffer.encode encoding) = .ok decoded ∧ decoded.toList = text) ∧
    buffer.toText = String.ofList text ∧
    (∀ sink, buffer.writeTo sink = sink ++ String.ofList text) ∧
    buffer.drain.1 = String.ofList text ∧ buffer.drain.2.toList = [] ∧
    (String.ofList text).toByteArray.data.toList = buffer.encode .utf8 ∧
    ∀ bytes, ofBytes encoding bytes = .ok buffer →
      (buffer.toList.head? ≠ some Codespace.markScalar →
        buffer.encode encoding =
          if encoding = .utf8Bom ∧ ¬ [0xEF, 0xBB, 0xBF] <+: bytes then [0xEF, 0xBB, 0xBF] ++ bytes
          else bytes) ∧
      (buffer.toList.head? = some Codespace.markScalar →
        ∃ rest, bytes = encoding.mark ++ encodeScalar encoding Codespace.markScalar ++ rest ∧
          buffer.encode encoding = encoding.mark ++ rest) := by
  intro text
  have shown : buffer.withoutMark = text := buffer.withoutMark_eq
  rw [← shown]
  refine ⟨exists_ofBytes (decode_encode encoding buffer.withoutMark), rfl,
    fun sink => foldl_push_eq sink _, rfl, rfl, toByteArray_ofList _, ?_⟩
  intro bytes made
  exact ⟨encode_of_unmarked made, encode_of_marked made⟩

/-- Two marks in front of a letter: the first is consumed, the second is content and is not encoded. -/
theorem shows_and_encodes_without_mark_two_marks :
    ∃ buffer, ofBytes .utf8Bom [0xEF, 0xBB, 0xBF, 0xEF, 0xBB, 0xBF, 0x61] = .ok buffer ∧
      buffer.toList.head? = some Codespace.markScalar ∧
      ∃ rest, [0xEF, 0xBB, 0xBF, 0xEF, 0xBB, 0xBF, 0x61] =
          Encoding.mark .utf8Bom ++ encodeScalar .utf8Bom Codespace.markScalar ++ rest ∧
        buffer.encode .utf8Bom = Encoding.mark .utf8Bom ++ rest := by
  have made : ofBytes .utf8Bom [0xEF, 0xBB, 0xBF, 0xEF, 0xBB, 0xBF, 0x61] =
      .ok ⟨#[Codespace.markScalar, 'a'], defaultGrowth, by decide⟩ := rfl
  obtain ⟨-, -, -, -, -, -, back⟩ := shows_and_encodes_without_mark
    ⟨#[Codespace.markScalar, 'a'], defaultGrowth, by decide⟩ .utf8Bom
  exact ⟨_, made, rfl, (back _ made).2 rfl⟩

end UnicodeInput.TextBuffer
