import UnicodeInput.Proofs.Document.Ending

/-! Two ways past a mark. A source has its mark read byte by byte and can take one byte back; a whole
input shows its mark at once. What is left to decode is the same, whether the byte behind it has been
fetched and given back or not. The ways part on one kind of input: where the mark of UTF-8 may be missing
and the input begins as the mark does, but is not marked. There the source has been read too far. -/
namespace UnicodeInput

open Codec

variable {encoding : Encoding} {bytes : List UInt8} {source : MemorySource}

/-- Input without the optional mark that begins with the first byte of it all the same. -/
def HalfMarked (encoding : Encoding) (bytes : List UInt8) : Prop :=
  encoding = .utf8Bom ∧ [0xEF] <+: bytes ∧ ¬ [0xEF, 0xBB, 0xBF] <+: bytes

/-- The document with the text that a source encodes behind its mark. -/
def Document.ofMarkedSource {σ : Type} [ByteSource σ] (encoding : Encoding) (options : Options) :
    EStateM BuildError σ Document := do
  EStateM.adaptExcept .undecodable (readMark encoding)
  ofSource encoding options

def Document.ofMarkedBytes (encoding : Encoding) (bytes : List UInt8) (options : Options) :
    Except BuildError Document :=
  match Codec.decode encoding bytes with
  | .ok scalars => ofScalars scalars options
  | .error e => .error (.undecodable e)

namespace Codec

/-! ## Marks -/

/-- Unless the input is marked by half, both ways come to the same bytes, or to the same fault. -/
theorem readMark_like_afterMark (decided : ¬ HalfMarked encoding bytes) :
    match afterMark encoding bytes with
    | .ok plain => ∃ marked, readMark encoding (MemorySource.ofBytes bytes) = .ok () marked ∧
        Shows none plain.finish plain marked
    | .error e => ∃ rest, readMark encoding (MemorySource.ofBytes bytes) = .error e rest := by
  have free : (MemorySource.ofBytes bytes).pending = none := rfl
  by_cases kind : encoding = .utf8Bom
  · subst kind
    by_cases marked : Encoding.utf8Bom.mark <+: bytes
    · rw [afterMark_eq_ok_iff.mpr (.inl ⟨marked, rfl⟩)]
      exact ⟨_, readMark_of_prefix free marked, shows_self free⟩
    · rw [afterMark_eq_ok_iff.mpr (.inr ⟨rfl, marked, rfl⟩)]
      cases bytes with
      | nil => exact ⟨_, readMark_optional_of_nil free rfl, shows_self free⟩
      | cons first rest =>
        have other : first ≠ 0xEF := fun same =>
          decided ⟨rfl, ⟨rest, same ▸ rfl⟩, marked⟩
        refine ⟨_, ?_, shows_fetched free⟩
        rw [readMark_optional_of_cons free rfl, if_neg other]
        exact putBack_of_cons free rfl
  · rw [afterMark_eq_readMark kind]
    cases read : readMark encoding (MemorySource.ofBytes bytes) with
    | error e rest => exact ⟨rest, rfl⟩
    | ok _ marked =>
      obtain ⟨-, rfl⟩ := (readMark_eq_ok_iff free kind).mp read
      exact ⟨_, rfl, shows_self free⟩

/-- Half a mark is refused at the byte where it stops being one. -/
theorem readMark_of_halfMarked (half : HalfMarked encoding bytes) :
    ∃ n byte rest, (n = 1 ∨ n = 2) ∧ encoding.mark[n]? = some byte ∧
      readMark encoding (MemorySource.ofBytes bytes) = .error (.wrongMark encoding byte n) rest := by
  obtain ⟨rfl, ⟨tail, rfl⟩, unmarked⟩ := half
  have free : (MemorySource.ofBytes (0xEF :: tail)).pending = none := rfl
  have free' : ((MemorySource.ofBytes (0xEF :: tail)).skip 1).pending = none := free
  have absent : ¬ [0xBB, 0xBF] <+: ((MemorySource.ofBytes (0xEF :: tail)).skip 1).rest :=
    fun whole => unmarked (List.cons_prefix_cons.mpr ⟨rfl, whole⟩)
  obtain ⟨n, byte, found, -, -, refused⟩ := expectBytes_of_not_prefix .utf8Bom free' absent
  have inside : n < 2 := (List.getElem?_eq_some_iff.mp found).1
  have offset : ((MemorySource.ofBytes (0xEF :: tail)).skip 1).offset + n = n + 1 := by
    rw [Nat.add_comm]
    rfl
  have further : readMark .utf8Bom (MemorySource.ofBytes (0xEF :: tail)) =
      expectBytes .utf8Bom [0xBB, 0xBF] ((MemorySource.ofBytes (0xEF :: tail)).skip 1) := by
    rw [readMark_optional_of_cons free rfl, if_pos rfl]
  rw [offset] at refused
  exact ⟨n + 1, byte, _, by omega, found, further.trans refused⟩

/-- Whole input marked by half is wrong, if at all, for another reason than its mark. -/
theorem decode_utf8Bom_ne_wrongMark (named : Encoding) (byte : UInt8) (n : Nat) :
    Codec.decode .utf8Bom bytes ≠ .error (.wrongMark named byte n) := by
  obtain ⟨plain, marked⟩ : ∃ plain, afterMark .utf8Bom bytes = .ok plain := by
    by_cases marked : Encoding.utf8Bom.mark <+: bytes
    · exact ⟨_, afterMark_eq_ok_iff.mpr (.inl ⟨marked, rfl⟩)⟩
    · exact ⟨_, afterMark_eq_ok_iff.mpr (.inr ⟨rfl, marked, rfl⟩)⟩
  have free := pending_of_afterMark marked
  obtain ⟨scalars, fault, rest, run⟩ := Decodes.exists_of_free .utf8Bom free
  obtain ⟨tail, -, stops⟩ := run.rest_eq free
  rw [decode_of_run marked run]
  cases fault with
  | none => exact nofun
  | some e =>
    intro wrong
    obtain rfl : e = .wrongMark named byte n := Except.error.inj wrong
    cases stops.2.2

end Codec

/-! ## Buffers and documents -/

theorem TextBuffer.ofSource_eq_ofBytes (decided : ¬ HalfMarked encoding bytes) :
    (settled (ofSource encoding (MemorySource.ofBytes bytes))).1 = ofBytes encoding bytes := by
  have both := readMark_like_afterMark decided
  unfold ofSource
  cases behind : afterMark encoding bytes with
  | error e =>
    rw [behind] at both
    obtain ⟨rest, refused⟩ := both
    rw [bind_of_error refused, ofBytes, foldWhole, behind]
    rfl
  | ok plain =>
    rw [behind] at both
    obtain ⟨marked, read, shows⟩ := both
    obtain ⟨scalars, fault, left, run⟩ := Decodes.exists_of_free encoding shows.free
    rw [bind_of_ok read, settled_foldScalars run shows, faultEndingIn_none, ofBytes,
      foldWhole_of_run behind run]

theorem Document.ofMarkedSource_eq_ofMarkedBytes (decided : ¬ HalfMarked encoding bytes)
    (options : Options) :
    (settled (ofMarkedSource encoding options (MemorySource.ofBytes bytes))).1 =
      ofMarkedBytes encoding bytes options := by
  have both := readMark_like_afterMark decided
  unfold ofMarkedSource
  cases behind : afterMark encoding bytes with
  | error e =>
    rw [behind] at both
    obtain ⟨rest, refused⟩ := both
    have decoded : Codec.decode encoding bytes = .error e := by
      rw [Codec.decode, foldWhole, behind]
      rfl
    rw [bind_of_error (adaptExcept_eq_error_iff.mpr ⟨e, refused, rfl⟩), ofMarkedBytes, decoded]
    rfl
  | ok plain =>
    rw [behind] at both
    obtain ⟨marked, read, shows⟩ := both
    obtain ⟨scalars, fault, left, run⟩ := Decodes.exists_of_free encoding shows.free
    obtain ⟨rest, run', -⟩ := run.endingIn shows
    rw [faultEndingIn_none] at run'
    rw [bind_of_ok (adaptExcept_eq_ok_iff.mpr read), ofSource_eq run' (shows.length_le run),
      settled_leaving, ofMarkedBytes, decode_of_run behind run]
    cases fault <;> rfl

/-- A source marked by half makes neither, and both name the byte that the mark has there. -/
theorem refused_of_halfMarked (half : HalfMarked encoding bytes) (options : Document.Options) :
    ∃ n byte, (n = 1 ∨ n = 2) ∧ encoding.mark[n]? = some byte ∧
      (settled (TextBuffer.ofSource encoding (MemorySource.ofBytes bytes))).1 =
        .error (.wrongMark encoding byte n) ∧
      (settled (Document.ofMarkedSource encoding options (MemorySource.ofBytes bytes))).1 =
        .error (.undecodable (.wrongMark encoding byte n)) := by
  obtain ⟨n, byte, rest, place, wanted, refused⟩ := readMark_of_halfMarked half
  refine ⟨n, byte, place, wanted, ?_, ?_⟩
  · rw [TextBuffer.ofSource, bind_of_error refused]
    rfl
  · rw [Document.ofMarkedSource, bind_of_error (adaptExcept_eq_error_iff.mpr ⟨_, refused, rfl⟩)]
    rfl

theorem TextBuffer.ofBytes_ne_wrongMark (named : Encoding) (byte : UInt8) (n : Nat) :
    ofBytes .utf8Bom bytes ≠ .error (.wrongMark named byte n) := by
  intro wrong
  have decoded := toList_ofBytes .utf8Bom bytes
  rw [wrong] at decoded
  exact decode_utf8Bom_ne_wrongMark named byte n decoded.symm

theorem Document.ofMarkedBytes_ne_wrongMark (options : Options) (named : Encoding) (byte : UInt8)
    (n : Nat) : ofMarkedBytes .utf8Bom bytes options ≠ .error (.undecodable (.wrongMark named byte n)) := by
  intro wrong
  rw [ofMarkedBytes] at wrong
  cases decoded : Codec.decode .utf8Bom bytes with
  | error e =>
    rw [decoded] at wrong
    cases wrong
    exact decode_utf8Bom_ne_wrongMark named byte n decoded
  | ok scalars =>
    rw [decoded] at wrong
    simp only [ofScalars, document_foldl_add] at wrong
    split at wrong <;> cases wrong

/-- A buffer and a document come out of a source as they come out of the whole input, or fail with the
same fault at the same offset, unless the optional mark of UTF-8 begins the input and does not go on. On
such input, and on no other, the source gives something else, whatever the whole input gives: the mark is
found wrong, at the byte after the first or at the one after that. -/
theorem marked_routes_agree_iff (encoding : Encoding) (bytes : List UInt8)
    (options : Document.Options) :
    ((settled (TextBuffer.ofSource encoding (MemorySource.ofBytes bytes))).1 =
      TextBuffer.ofBytes encoding bytes ↔ ¬ HalfMarked encoding bytes) ∧
    ((settled (Document.ofMarkedSource encoding options (MemorySource.ofBytes bytes))).1 =
      Document.ofMarkedBytes encoding bytes options ↔ ¬ HalfMarked encoding bytes) ∧
    (HalfMarked encoding bytes → ∃ n byte, (n = 1 ∨ n = 2) ∧ encoding.mark[n]? = some byte ∧
      (settled (TextBuffer.ofSource encoding (MemorySource.ofBytes bytes))).1 =
        .error (.wrongMark encoding byte n) ∧
      (settled (Document.ofMarkedSource encoding options (MemorySource.ofBytes bytes))).1 =
        .error (.undecodable (.wrongMark encoding byte n))) := by
  refine ⟨⟨fun same half => ?_, TextBuffer.ofSource_eq_ofBytes⟩, ⟨fun same half => ?_,
    fun decided => Document.ofMarkedSource_eq_ofMarkedBytes decided options⟩,
    fun half => refused_of_halfMarked half options⟩
  · obtain ⟨n, byte, -, -, wrong, -⟩ := refused_of_halfMarked half options
    obtain ⟨rfl, -⟩ := half
    exact TextBuffer.ofBytes_ne_wrongMark _ _ _ (same.symm.trans wrong)
  · obtain ⟨n, byte, -, -, -, wrong⟩ := refused_of_halfMarked half options
    obtain ⟨rfl, -⟩ := half
    exact Document.ofMarkedBytes_ne_wrongMark _ _ _ _ (same.symm.trans wrong)

/-- A letter whose first two bytes are those of the mark: whole input has it, and the source is refused. -/
theorem marked_routes_agree_iff_two_bytes :
    HalfMarked .utf8Bom [0xEF, 0xBB, 0x80] ∧
    Codec.decode .utf8Bom [0xEF, 0xBB, 0x80] = .ok ['\uFEC0'] ∧
    ∃ n byte, (n = 1 ∨ n = 2) ∧ Encoding.utf8Bom.mark[n]? = some byte ∧
      (settled (TextBuffer.ofSource .utf8Bom (MemorySource.ofBytes [0xEF, 0xBB, 0x80]))).1 =
        .error (.wrongMark .utf8Bom byte n) ∧
      (settled (Document.ofMarkedSource .utf8Bom {} (MemorySource.ofBytes [0xEF, 0xBB, 0x80]))).1 =
        .error (.undecodable (.wrongMark .utf8Bom byte n)) := by
  have half : HalfMarked .utf8Bom [0xEF, 0xBB, 0x80] := ⟨rfl, by decide, by decide⟩
  exact ⟨half, by decide, (marked_routes_agree_iff .utf8Bom [0xEF, 0xBB, 0x80] {}).2.2 half⟩

end UnicodeInput
