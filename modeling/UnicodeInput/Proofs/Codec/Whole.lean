import UnicodeInput.Codec.Whole
import UnicodeInput.Proofs.Codec.Run

/-! Decoding whole inputs against encoding them. The run behind the mark reaches the end exactly when
the bytes there are the encodings of some scalar values one after the other, and then it has given those
scalar values; with the rule for marks this makes `decode` and `encode` inverse to each other, up to the
mark that UTF-8 may leave out. -/
namespace UnicodeInput.Codec

variable {β : Type} {f : β → Char → β} {encoding : Encoding} {source : MemorySource}

/-! ## Marks -/

theorem readMark_eq_ok_iff (free : source.pending = none) (kind : encoding ≠ .utf8Bom)
    {after : MemorySource} :
    readMark encoding source = .ok () after ↔
      encoding.mark <+: source.rest ∧ after = source.skip encoding.mark.length := by
  cases encoding with
  | utf8 =>
    rw [readMark, pure_eq_ok_iff]
    simp [Encoding.mark, eq_comm]
  | utf8Bom => exact absurd rfl kind
  | utf16 order => exact expectBytes_eq_ok_iff free
  | utf32 order => exact expectBytes_eq_ok_iff free

theorem readMark_optional_of_nil (free : source.pending = none) (ended : source.rest = []) :
    readMark .utf8Bom source = .ok () source := by
  have asked := (MemorySource.hasNext_eq_end_iff free).mpr ⟨ended, rfl⟩
  rw [readMark, bind_of_ok (more_of_hasNext asked)]
  rfl

/-- The first byte decides, and is taken. -/
theorem readMark_optional_of_cons (free : source.pending = none) {first : UInt8} {rest : List UInt8}
    (ahead : source.rest = first :: rest) :
    readMark .utf8Bom source =
      (if first = 0xEF then expectBytes .utf8Bom [0xBB, 0xBF] else putBack first)
        (source.skip 1) := by
  have follows : source.rest ≠ [] := ahead ▸ List.cons_ne_nil first rest
  have asked := (MemorySource.hasNext_eq_more_iff free).mpr ⟨follows, rfl⟩
  have given := (MemorySource.read_eq_ok_iff free).mpr ⟨⟨rest, ahead.symm⟩, rfl⟩
  rw [readMark, bind_of_ok (more_of_hasNext asked), if_pos rfl,
    bind_of_ok (adaptExcept_eq_ok_iff.mpr given)]

/-- A mark that is there is consumed, the optional one too. -/
theorem readMark_of_prefix (free : source.pending = none) (marked : encoding.mark <+: source.rest) :
    readMark encoding source = .ok () (source.skip encoding.mark.length) := by
  by_cases kind : encoding = .utf8Bom
  · subst kind
    have free' : (source.skip 1).pending = none := free
    obtain ⟨front, back⟩ :=
      append_prefix_iff.mp (show [0xEF] ++ [0xBB, 0xBF] <+: source.rest from marked)
    obtain ⟨rest, ahead⟩ := front
    rw [readMark_optional_of_cons free ahead.symm, if_pos rfl]
    exact (expectBytes_eq_ok_iff free').mpr ⟨back, (MemorySource.skip_skip source 1 2).symm⟩
  · exact (readMark_eq_ok_iff free kind).mpr ⟨marked, rfl⟩

/-- A mark is the encoding of one scalar value, which makes it text for whoever does not look for it. -/
theorem mark_eq_flatMap (encoding : Encoding) :
    encoding.mark =
      (if encoding = .utf8 then [] else [Codespace.markScalar]).flatMap (encodeScalar encoding) := by
  cases encoding with
  | utf8 | utf8Bom => rfl
  | utf16 order | utf32 order => cases order <;> rfl

/-- A mark that has to be there is read as from any source. -/
theorem afterMark_eq_readMark {bytes : List UInt8} (kind : encoding ≠ .utf8Bom) :
    afterMark encoding bytes =
      match readMark encoding (MemorySource.ofBytes bytes) with
      | .ok () source => .ok source
      | .error e _ => .error e := by
  cases encoding with
  | utf8Bom => exact absurd rfl kind
  | utf8 | utf16 _ | utf32 _ => rfl

/-- Only UTF-8 may go without its mark, and then all of the input is content. -/
theorem afterMark_eq_ok_iff {bytes : List UInt8} :
    afterMark encoding bytes = .ok source ↔
      (encoding.mark <+: bytes ∧ source = (MemorySource.ofBytes bytes).skip encoding.mark.length) ∨
      (encoding = .utf8Bom ∧ ¬ encoding.mark <+: bytes ∧ source = MemorySource.ofBytes bytes) := by
  by_cases kind : encoding = .utf8Bom
  · subst kind
    unfold afterMark
    by_cases marked : Encoding.utf8Bom.mark <+: bytes
    · have found : Encoding.utf8Bom.mark.isPrefixOf bytes = true := List.isPrefixOf_iff_prefix.mpr marked
      simp [found, marked, eq_comm]
    · have found : ¬ Encoding.utf8Bom.mark.isPrefixOf bytes = true := by
        rwa [List.isPrefixOf_iff_prefix]
      simp [found, marked, eq_comm]
  · have run : afterMark encoding bytes = .ok source ↔
        readMark encoding (MemorySource.ofBytes bytes) = .ok () source := by
      rw [afterMark_eq_readMark kind]
      cases readMark encoding (MemorySource.ofBytes bytes) <;> simp
    rw [run, readMark_eq_ok_iff rfl kind]
    simp [kind, MemorySource.ofBytes]

/-! ## Whole inputs -/

theorem pending_of_afterMark {bytes : List UInt8} (h : afterMark encoding bytes = .ok source) :
    source.pending = none := by
  obtain ⟨-, rfl⟩ | ⟨-, -, rfl⟩ := afterMark_eq_ok_iff.mp h <;> rfl

/-- Input that starts with the mark is what encoding gives, exactly if the rest is content. -/
theorem eq_encode_iff {bytes : List UInt8} {scalars : List Char} :
    bytes = encode encoding scalars ↔ encoding.mark <+: bytes ∧
      bytes.drop encoding.mark.length = scalars.flatMap (encodeScalar encoding) := by
  unfold encode
  constructor
  · intro h
    rw [h]
    exact ⟨List.prefix_append .., List.drop_left⟩
  · intro h
    obtain ⟨⟨tail, rfl⟩, content⟩ := h
    rw [List.drop_left] at content
    rw [content]

theorem foldWhole_of_run {bytes : List UInt8} {rest : MemorySource} {scalars : List Char}
    {fault : Option DecodeError} (marked : afterMark encoding bytes = .ok source)
    (run : Decodes encoding source scalars fault rest) (acc : β) :
    foldWhole encoding bytes f acc = verdict fault (scalars.foldl f acc) := by
  have folded := run.foldScalars_of_free (f := f) (pending_of_afterMark marked) acc
  simp only [foldWhole, marked, bind, Except.bind, folded]
  cases fault <;> rfl

theorem decode_of_run {bytes : List UInt8} {rest : MemorySource} {scalars : List Char}
    {fault : Option DecodeError} (marked : afterMark encoding bytes = .ok source)
    (run : Decodes encoding source scalars fault rest) :
    decode encoding bytes = verdict fault scalars := by
  rw [decode, foldWhole_of_run marked run, map_verdict, List.foldl_push_eq_append',
    Array.empty_append]

theorem decode_eq_ok_iff {bytes : List UInt8} {scalars : List Char} :
    decode encoding bytes = .ok scalars ↔
      ∃ source, afterMark encoding bytes = .ok source ∧
        source.rest = scalars.flatMap (encodeScalar encoding) := by
  constructor
  · intro decoded
    cases marked : afterMark encoding bytes with
    | error e =>
      rw [decode, foldWhole, marked] at decoded
      cases decoded
    | ok source =>
      have free := pending_of_afterMark marked
      obtain ⟨found, fault, rest, run⟩ := Decodes.exists_of_free encoding free
      rw [decode_of_run marked run] at decoded
      cases fault with
      | some e => cases decoded
      | none =>
        cases decoded
        obtain ⟨_, content, rfl⟩ := run.rest_eq free
        exact ⟨source, rfl, by rw [content, List.append_nil]⟩
  · intro given
    obtain ⟨source, marked, content⟩ := given
    obtain ⟨rest, run⟩ := Decodes.of_flatMap (pending_of_afterMark marked) content
    exact decode_of_run marked run

/-- Decoding gives `scalars` on the bytes that encode them and, where the mark of UTF-8 is optional,
on those bytes without the mark; it gives them on no others. -/
theorem decode_ok_iff_encode (encoding : Encoding) (bytes : List UInt8) (scalars : List Char) :
    decode encoding bytes = .ok scalars ↔
      bytes = encode encoding scalars ∨
      (encoding = .utf8Bom ∧ ¬ [0xEF, 0xBB, 0xBF] <+: bytes ∧ bytes = encode .utf8 scalars) := by
  rw [decode_eq_ok_iff, eq_encode_iff]
  constructor
  · intro h
    obtain ⟨source, marked, content⟩ := h
    obtain ⟨mark, rfl⟩ | ⟨rfl, unmarked, rfl⟩ := afterMark_eq_ok_iff.mp marked
    · left
      exact ⟨mark, content⟩
    · right
      exact ⟨rfl, unmarked, content⟩
  · intro h
    rcases h with ⟨mark, content⟩ | ⟨rfl, unmarked, content⟩
    · exact ⟨_, afterMark_eq_ok_iff.mpr (.inl ⟨mark, rfl⟩), content⟩
    · exact ⟨_, afterMark_eq_ok_iff.mpr (.inr ⟨rfl, unmarked, rfl⟩), content⟩

end UnicodeInput.Codec
