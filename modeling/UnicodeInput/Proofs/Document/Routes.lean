import UnicodeInput.Document.Layout
import UnicodeInput.Proofs.Codec.Transcode
import UnicodeInput.Proofs.Cursor.Moves
import UnicodeInput.Proofs.Document.Layout
import UnicodeInput.TextBuffer

/-! The routes from bytes to a buffer, to other bytes and to a document. Each decodes for itself, and all
do what one run of the decoder does: they hold its scalar values if it reaches the end, and otherwise
fail with its fault. So a document keeps nothing of the encoding it came in or of the way it came. -/
namespace UnicodeInput

open Codec

variable {encoding : Encoding} {scalars : List Char} {fault : Option DecodeError}

namespace TextBuffer

theorem toList_append (buffer : TextBuffer) (scalars : List Char) :
    (buffer.append scalars).toList = buffer.toList ++ scalars := by
  simp [append, toList]

theorem append_nil (buffer : TextBuffer) : buffer.append [] = buffer := by
  simp [append]

theorem append_append (buffer : TextBuffer) (front back : List Char) :
    (buffer.append front).append back = buffer.append (front ++ back) := by
  have scalars : buffer.scalars ++ front ++ back = buffer.scalars ++ (front ++ back) :=
    Array.ext' (by simp)
  rw [append, append, append, scalars]

theorem foldl_push (buffer : TextBuffer) (scalars : List Char) :
    scalars.foldl push buffer = buffer.append scalars := by
  induction scalars generalizing buffer with
  | nil => exact (append_nil buffer).symm
  | cons c scalars ih =>
    have first : buffer.push c = buffer.append [c] := by simp [push, append]
    rw [List.foldl_cons, ih, first, append_append, List.singleton_append]

theorem ofBytes_eq (encoding : Encoding) (bytes : List UInt8) :
    ofBytes encoding bytes = empty.append <$> Codec.decode encoding bytes := by
  rw [ofBytes, foldWhole_eq_map, funext (foldl_push empty)]

/-- A buffer holds what the bytes decode to, and fails as decoding does. -/
theorem toList_ofBytes (encoding : Encoding) (bytes : List UInt8) :
    toList <$> ofBytes encoding bytes = Codec.decode encoding bytes := by
  rw [ofBytes_eq]
  cases Codec.decode encoding bytes with
  | error e => rfl
  | ok scalars => exact congrArg Except.ok (toList_append empty scalars)

end TextBuffer

namespace Document

variable {σ : Type} [ByteSource σ]

theorem ofSource_eq {source rest : σ} (run : Decodes encoding source scalars fault rest)
    (bound : scalars.length ≤ ByteSource.deliverable source) (options : Options) :
    ofSource encoding options source =
      leaving rest (fault.elim (ofScalars scalars options) fun e => .error (.undecodable e)) := by
  have folded := run.foldScalars_eq (f := Layout.add) bound {}
  cases fault with
  | some e => exact bind_of_error (adaptExcept_eq_error_iff.mpr ⟨e, folded, rfl⟩)
  | none =>
    rw [ofSource, bind_of_ok (adaptExcept_eq_ok_iff.mpr folded), Option.elim_none, ofScalars]
    cases Layout.document (scalars.foldl Layout.add {}) options <;> rfl

theorem ofBytes_eq {bytes : List UInt8} {rest : MemorySource}
    (run : Decodes encoding (MemorySource.ofBytes bytes) scalars fault rest) (options : Options) :
    ofBytes encoding bytes options =
      fault.elim (ofScalars scalars options) fun e => .error (.undecodable e) := by
  have made := ofSource_eq run (Nat.le_add_left_of_le (run.length_le rfl)) options
  rw [ofBytes, made]
  cases fault with
  | none => cases ofScalars scalars options <;> rfl
  | some e => rfl

theorem ofBytes_flatMap (encoding : Encoding) (scalars : List Char) (options : Options) :
    ofBytes encoding (scalars.flatMap (encodeScalar encoding)) options = ofScalars scalars options := by
  have content : (MemorySource.ofBytes (scalars.flatMap (encodeScalar encoding))).rest = _ := rfl
  obtain ⟨rest, run⟩ := Decodes.of_flatMap rfl content
  exact ofBytes_eq run options

/-- Two results that are one: the same document or the same failure. A cursor in front of the one
document answers every run of moves as a cursor in front of the other, and ends up in the same state. -/
structure Agree (made other : Except BuildError Document) : Prop where
  eq : made = other
  runs : ∀ (overflow : Overflow) (moves : List Cursor.Move),
    (fun document => Cursor.run overflow moves (Cursor.ofDocument document)) <$> made =
      (fun document => Cursor.run overflow moves (Cursor.ofDocument document)) <$> other

theorem Agree.of_eq {made other : Except BuildError Document} (same : made = other) :
    Agree made other :=
  ⟨same, fun _ _ => same ▸ rfl⟩

/-- The document of a text is the same from its characters, from its bytes in any encoding and from a
source whose mark has been read. Where a mark is not read, it is the first scalar value of the text. -/
theorem ofScalars_agrees (scalars : List Char) (encoding : Encoding) (options : Options) :
    ((∃ e, ofScalars scalars options = .error e) ↔ scalars = []) ∧
    Agree (ofText (String.ofList scalars) options) (ofScalars scalars options) ∧
    Agree (ofBytes encoding (scalars.flatMap (encodeScalar encoding)) options)
      (ofScalars scalars options) ∧
    (∃ marked made rest,
      readMark encoding (MemorySource.ofBytes (encode encoding scalars)) = .ok () marked ∧
      ofSource encoding options marked = leaving rest made ∧
      Agree made (ofScalars scalars options)) ∧
    Agree (ofBytes encoding (encode encoding scalars) options)
      (ofScalars ((if encoding = .utf8 then [] else [Codespace.markScalar]) ++ scalars) options) := by
  refine ⟨?_, .of_eq ?_, .of_eq (ofBytes_flatMap encoding scalars options), ?_, .of_eq ?_⟩
  · rw [ofScalars, document_foldl_add]
    split <;> simp [*]
  · rw [ofText, String.toList_ofList]
  · obtain ⟨mark, content⟩ := eq_encode_iff.mp (rfl : encode encoding scalars = _)
    have free : ((MemorySource.ofBytes (encode encoding scalars)).skip
      encoding.mark.length).pending = none := rfl
    obtain ⟨rest, run⟩ := Decodes.of_flatMap free content
    exact ⟨_, _, rest, readMark_of_prefix rfl mark,
      ofSource_eq run (Nat.le_add_left_of_le (run.length_le free)) options, .of_eq rfl⟩
  · rw [encode, mark_eq_flatMap, ← List.flatMap_append, ofBytes_flatMap]

end Document

/-- A buffer, the same bytes in another encoding and a document all hold the scalar values of one run of
the decoder, or fail with its fault; for a document no mark is looked for. -/
theorem routes_decode_alike (encoding output : Encoding) (bytes : List UInt8)
    (options : Document.Options) :
    TextBuffer.toList <$> TextBuffer.ofBytes encoding bytes = Codec.decode encoding bytes ∧
    transcode encoding output bytes = encode output <$> Codec.decode encoding bytes ∧
    ∃ (scalars : List Char) (fault : Option DecodeError),
      Decoder.Yields { source := MemorySource.ofBytes bytes, encoding } scalars fault ∧
      Document.ofBytes encoding bytes options =
        match fault with
        | none => Document.ofScalars scalars options
        | some e => .error (.undecodable e) := by
  have free : (MemorySource.ofBytes bytes).pending = none := rfl
  obtain ⟨scalars, fault, rest, run⟩ := Decodes.exists_of_free encoding free
  refine ⟨TextBuffer.toList_ofBytes encoding bytes, transcode_eq encoding output bytes,
    scalars, fault, run.yields (run.spent free), ?_⟩
  rw [Document.ofBytes_eq run options]
  cases fault <;> rfl

end UnicodeInput
