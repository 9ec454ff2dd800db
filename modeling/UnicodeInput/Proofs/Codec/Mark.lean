import UnicodeInput.Proofs.Codec.Ending
import UnicodeInput.Proofs.Codec.GivenBack
import UnicodeInput.Proofs.Codec.Whole

/-! Reading a mark. The bytes ahead agree with the mark for a while, and how long is all that matters. The
optional mark of UTF-8 is decided by its first byte. If that differs it is given back, and nobody who goes
on reading can tell; if it agrees the mark is as mandatory as any other, and the bytes are compared one by
one until the first that is different or missing. -/
namespace UnicodeInput.Codec

/-! ## Agreement -/

/-- The length of the longest common prefix. -/
def agreement : (expected bytes : List UInt8) → Nat
  | byte :: expected, got :: bytes => if got = byte then agreement expected bytes + 1 else 0
  | _, _ => 0

variable {expected bytes : List UInt8}

theorem take_agreement (expected bytes : List UInt8) :
    expected.take (agreement expected bytes) <+: bytes := by
  fun_induction agreement with
  | case1 expected got bytes ih => exact List.cons_prefix_cons.mpr ⟨rfl, ih⟩
  | case2 | case3 => exact List.nil_prefix

theorem agreement_le_length (expected bytes : List UInt8) :
    agreement expected bytes ≤ expected.length := by
  fun_induction agreement with
  | case1 expected got bytes ih => exact Nat.succ_le_succ ih
  | case2 | case3 => exact Nat.zero_le _

theorem length_le_agreement {front : List UInt8} (begins : front <+: expected) (given : front <+: bytes) :
    front.length ≤ agreement expected bytes := by
  induction front generalizing expected bytes with
  | nil => exact Nat.zero_le _
  | cons byte front ih =>
    obtain ⟨rest, rfl⟩ := begins
    obtain ⟨tail, rfl⟩ := given
    rw [List.cons_append, List.cons_append, agreement, if_pos rfl]
    exact Nat.succ_le_succ (ih (List.prefix_append ..) (List.prefix_append ..))

theorem agreement_eq_length_iff : agreement expected bytes = expected.length ↔ expected <+: bytes := by
  constructor
  · intro whole
    have front := take_agreement expected bytes
    rwa [whole, List.take_length] at front
  · intro front
    exact Nat.le_antisymm (agreement_le_length ..) (length_le_agreement (List.prefix_refl _) front)

/-- Where the agreement ends. -/
theorem eq_agreement {n : Nat} (within : n < expected.length) (front : expected.take n <+: bytes)
    (differs : ¬ expected.take (n + 1) <+: bytes) : n = agreement expected bytes := by
  have least := length_le_agreement (List.take_prefix ..) front
  rw [List.length_take_of_le (Nat.le_of_lt within)] at least
  refine Nat.le_antisymm least (Nat.le_of_not_lt fun further => differs ?_)
  exact (List.take_prefix_take_left further).trans (take_agreement expected bytes)

/-! ## Marks -/

variable {encoding : Encoding} {source : MemorySource}

/-- The first byte that is expected and not there is named, and what is there in its place is taken. -/
theorem expectBytes_of_agreement_lt (encoding : Encoding) (free : source.pending = none)
    (short : agreement expected source.rest < expected.length) :
    ∃ byte, expected[agreement expected source.rest]? = some byte ∧
      expectBytes encoding expected source =
        .error (.wrongMark encoding byte (source.offset + agreement expected source.rest))
          (source.skip (min (agreement expected source.rest + 1) source.rest.length)) := by
  have absent : ¬ expected <+: source.rest := mt agreement_eq_length_iff.mpr (Nat.ne_of_lt short)
  obtain ⟨n, byte, found, front, differs, refused⟩ := expectBytes_of_not_prefix encoding free absent
  obtain ⟨within, -⟩ := List.getElem?_eq_some_iff.mp found
  rw [← eq_agreement within front differs]
  exact ⟨byte, found, refused⟩

theorem expectBytes_of_read {byte : UInt8} {after : MemorySource}
    (taken : ByteSource.read source = .ok byte after) :
    expectBytes encoding (byte :: expected) source = expectBytes encoding expected after := by
  rw [expectBytes]
  simp only [taken, if_true]

/-- A mark that is mandatory, or begun, is read byte by byte. -/
theorem readMark_eq_expectBytes (free : source.pending = none)
    (begun : encoding = .utf8Bom → 0 < agreement encoding.mark source.rest) :
    readMark encoding source = expectBytes encoding encoding.mark source := by
  cases encoding with
  | utf8 | utf16 order | utf32 order => rfl
  | utf8Bom =>
    have begun := begun rfl
    cases ahead : source.rest with
    | nil =>
      rw [ahead] at begun
      cases begun
    | cons first rest =>
      have same : first = 0xEF := by
        by_contra differs
        rw [ahead, Encoding.mark, agreement, if_neg differs] at begun
        exact Nat.lt_irrefl 0 begun
      have taken : ByteSource.read source = .ok first (source.skip 1) :=
        (MemorySource.read_eq_ok_iff free).mpr ⟨⟨rest, ahead.symm⟩, rfl⟩
      subst same
      rw [readMark_optional_of_cons free ahead, if_pos rfl]
      exact (expectBytes_of_read taken).symm

/-- What is given back is told from what was never taken by its place only, which no request shows. -/
theorem alike_fetched (source : MemorySource) : Alike id id source.fetched source := by
  obtain ⟨rest, offset, pending⟩ := source
  cases pending with
  | some held => exact ⟨rfl, fun _ => rfl⟩
  | none => cases rest <;> exact ⟨rfl, fun _ => rfl⟩

/-- An optional mark of which not even the first byte is there. -/
theorem readMark_optional_of_agreement_zero (free : source.pending = none)
    (differs : agreement Encoding.utf8Bom.mark source.rest = 0) :
    ∃ after, readMark .utf8Bom source = .ok () after ∧ Alike id id after source := by
  cases ahead : source.rest with
  | nil => exact ⟨source, readMark_optional_of_nil free ahead, rfl, fun _ => rfl⟩
  | cons first rest =>
    have other : first ≠ 0xEF := by
      intro same
      rw [ahead, Encoding.mark, agreement, if_pos same] at differs
      cases differs
    refine ⟨source.fetched, ?_, alike_fetched source⟩
    rw [readMark_optional_of_cons free ahead, if_neg other, putBack_of_cons free ahead]

/-- Reading the mark of `encoding` where the bytes agree with it as far as they do. It is consumed if it is
there. If it may be missing and nothing of it is there, the source is as good as before. Otherwise the
first byte missing is named, and the input is consumed up to and with what is there in its place. -/
theorem readMark_by_agreement (encoding : Encoding) (bytes : List UInt8) (start : Nat) :
    let source : MemorySource := { rest := bytes, offset := start }
    let agreed := agreement encoding.mark bytes
    if agreed = encoding.mark.length then
      readMark encoding source = .ok () (source.skip encoding.mark.length)
    else if encoding = .utf8Bom ∧ agreed = 0 then
      ∃ after, readMark encoding source = .ok () after ∧
        ByteSource.position after = ByteSource.position source ∧
        ∀ requests, askEach requests after = askEach requests source
    else
      ∃ expected, encoding.mark[agreed]? = some expected ∧
        readMark encoding source = .error (.wrongMark encoding expected (start + agreed))
          (source.skip (min (agreed + 1) bytes.length)) := by
  intro source agreed
  have free : source.pending = none := rfl
  split
  case isTrue whole => exact readMark_of_prefix free (agreement_eq_length_iff.mp whole)
  case isFalse part =>
    split
    case isTrue missing =>
      obtain ⟨rfl, differs⟩ := missing
      obtain ⟨after, done, alike⟩ := readMark_optional_of_agreement_zero free differs
      refine ⟨after, done, alike.position, fun requests => ?_⟩
      rw [← map_relocate_id (askEach requests after), alike.askEach, map_relocate_id]
    case isFalse begun =>
      have started : encoding = .utf8Bom → 0 < agreed :=
        fun optional => Nat.pos_of_ne_zero fun differs => begun ⟨optional, differs⟩
      have short : agreed < encoding.mark.length := Nat.lt_of_le_of_ne (agreement_le_length ..) part
      rw [readMark_eq_expectBytes free started]
      exact expectBytes_of_agreement_lt encoding free short

example : readMark .utf8Bom ({ rest := [0xEF, 0xBB], offset := 7 } : MemorySource) =
    .error (.wrongMark .utf8Bom 0xBF 9) { rest := [], offset := 9 } := by
  rfl

end UnicodeInput.Codec
