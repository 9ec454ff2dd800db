import UnicodeInput.Encoding.Label
import UnicodeInput.Proofs.Codec.Utf8

/-! Labels, read without a block. A key is put together byte by byte in a block of fixed size, and a label
with too many bytes is given up at once. What the block holds is at all times the key of what was read, so
no byte goes past its end; and no encoding has a key that would not fit, so giving up early refuses nothing
that could be found. Bytes above ASCII are neither separators nor letters. The bytes of a key are therefore
those of the characters that are left, and two keys are the same exactly if these are. -/
namespace UnicodeInput.Encoding

open Codec

/-- What counts in a label: the separators are gone and ASCII letters are in lower case. -/
def folded (label : List Char) : List Char :=
  (label.filter fun c => c != '-' && c != '_').map Char.toLower

/-- What counts in the bytes of a label. -/
def foldedBytes (bytes : List UInt8) : List UInt8 :=
  (bytes.filter fun byte => !isSeparator byte).map lowerByte

/-- The name of an encoding without its dashes, in lower case. -/
def bareName (encoding : Encoding) : List Char :=
  (encoding.name.toList.filter (· != '-')).map Char.toLower

theorem foldedBytes_append (front back : List UInt8) :
    foldedBytes (front ++ back) = foldedBytes front ++ foldedBytes back := by
  rw [foldedBytes, List.filter_append, List.map_append]
  rfl

/-! ## The block -/

section Block

variable {block : KeyBlock} {key : List UInt8} {byte : UInt8}

/-- A block in which a key is under way. -/
structure KeyBlock.Holds (block : KeyBlock) (key : List UInt8) : Prop where
  size : block.bytes.size = keyRoom
  length : block.length = key.length
  fits : key.length ≤ keyRoom
  front : block.bytes.toList.take key.length = key

theorem KeyBlock.holds_nil : KeyBlock.Holds {} [] := ⟨rfl, rfl, Nat.zero_le _, rfl⟩

theorem KeyBlock.Holds.used_eq (holds : block.Holds key) : block.used = .ok key := by
  have inside : block.length ≤ block.bytes.size := by
    rw [holds.length, holds.size]
    exact holds.fits
  rw [used, if_pos inside, holds.length, holds.front]

theorem KeyBlock.Holds.add_of_full (holds : block.Holds key) (counts : isSeparator byte = false)
    (full : key.length = keyRoom) : block.add byte = .error .noRoom := by
  have last : block.length = block.bytes.size := by rw [holds.length, holds.size, full]
  rw [add, if_neg (Bool.eq_false_iff.mp counts), if_pos last]

/-- A byte that counts goes behind the key, and inside of the block. -/
theorem KeyBlock.Holds.add_of_room (holds : block.Holds key) (counts : isSeparator byte = false)
    (room : key.length < keyRoom) :
    ∃ next, block.add byte = .ok next ∧ next.Holds (key ++ [lowerByte byte]) := by
  have inside : block.length < block.bytes.size := by
    rw [holds.length, holds.size]
    exact room
  refine ⟨⟨block.bytes.set block.length (lowerByte byte), block.length + 1⟩, ?_, ?_, ?_, ?_, ?_⟩
  · rw [add, if_neg (Bool.eq_false_iff.mp counts), if_neg (Nat.ne_of_lt inside), dif_pos inside]
  · rw [Array.size_set, holds.size]
  · rw [List.length_append, List.length_singleton, ← holds.length]
  · rw [List.length_append, List.length_singleton]
    exact room
  · rw [List.length_append, List.length_singleton, ← holds.length, Array.toList_set,
      List.take_succ_eq_append_getElem (by simpa using inside), List.getElem_set_self,
      List.take_set_of_le (Nat.le_refl _), holds.length, holds.front]

/-- Reading on gives the whole key, unless it is too long. -/
theorem KeyBlock.Holds.foldlM_add (holds : block.Holds key) (bytes : List UInt8) :
    (bytes.foldlM KeyBlock.add block >>= KeyBlock.used) =
      if (key ++ foldedBytes bytes).length ≤ keyRoom then .ok (key ++ foldedBytes bytes)
      else .error .noRoom := by
  induction bytes generalizing block key with
  | nil =>
    rw [show foldedBytes [] = [] from rfl, List.append_nil, if_pos holds.fits]
    exact holds.used_eq
  | cons byte bytes ih =>
    rw [List.foldlM_cons, bind_assoc]
    cases counts : isSeparator byte with
    | true =>
      have skipped : foldedBytes (byte :: bytes) = foldedBytes bytes := by simp [foldedBytes, counts]
      rw [add, if_pos counts, skipped]
      exact ih holds
    | false =>
      have taken : foldedBytes (byte :: bytes) = lowerByte byte :: foldedBytes bytes := by
        simp [foldedBytes, counts]
      rw [taken]
      -- In a full block the run is over, and the key of the whole label is too long by this byte at least.
      by_cases full : key.length = keyRoom
      · rw [holds.add_of_full counts full, if_neg]
        · rfl
        · rw [List.length_append, List.length_cons]
          omega
      · obtain ⟨next, added, holds'⟩ :=
          holds.add_of_room counts (Nat.lt_of_le_of_ne holds.fits full)
        rw [added, List.append_cons]
        exact ih holds'

end Block

/-- The key of a label is all that counts in its bytes, unless that is more than a key can have. -/
theorem keyOf_eq (label : String) :
    keyOf label =
      if (foldedBytes label.toByteArray.data.toList).length ≤ keyRoom then
        .ok (foldedBytes label.toByteArray.data.toList)
      else .error .noRoom :=
  KeyBlock.holds_nil.foldlM_add _

/-! ## Bytes and characters -/

theorem foldedBytes_of_high {bytes : List UInt8} (high : ∀ byte ∈ bytes, 0x80 ≤ byte.toNat) :
    foldedBytes bytes = bytes := by
  have counts : ∀ byte ∈ bytes, (!isSeparator byte) = true := by
    intro byte inside
    have := high byte inside
    simp [isSeparator, ← UInt8.toNat_inj]
    omega
  have kept : ∀ byte ∈ bytes, lowerByte byte = byte := by
    intro byte inside
    have := high byte inside
    rw [lowerByte, if_neg]
    rw [UInt8.le_iff_toNat_le, UInt8.le_iff_toNat_le]
    exact fun letter => absurd letter.2 (by simp; omega)
  rw [foldedBytes, List.filter_eq_self.mpr counts, List.map_congr_left kept, List.map_id']

theorem folded_of_high {c : Char} (high : 0x80 ≤ c.toNat) : folded [c] = [c] := by
  have counts : ∀ d ∈ [c], (d != '-' && d != '_') = true := by
    simp only [List.mem_singleton, forall_eq, Bool.and_eq_true, bne_iff_ne]
    constructor
    · rintro rfl
      exact absurd high (by decide)
    · rintro rfl
      exact absurd high (by decide)
  have kept : c.toLower = c := dif_neg fun letter => by
    have : c.toNat ≤ 0x5A := letter.2
    omega
  rw [folded, List.filter_eq_self.mpr counts, List.map_singleton, kept]

theorem foldedBytes_encode_ascii :
    ∀ n < 0x80, foldedBytes (Utf8.encode (Char.ofNat n)) = (folded [Char.ofNat n]).flatMap Utf8.encode := by
  decide

theorem foldedBytes_encode (c : Char) :
    foldedBytes (Utf8.encode c) = (folded [c]).flatMap Utf8.encode := by
  by_cases high : 0x80 ≤ c.toNat
  · rw [foldedBytes_of_high (Utf8.le_of_mem_encode high), folded_of_high high]
    simp
  · rw [← Char.ofNat_toNat c]
    exact foldedBytes_encode_ascii c.toNat (by omega)

/-- The bytes that count in a text are those of the characters that count. -/
theorem foldedBytes_toByteArray (label : String) :
    foldedBytes label.toByteArray.data.toList =
      (String.ofList (folded label.toList)).toByteArray.data.toList := by
  conv => lhs; rw [← String.ofList_toList (s := label)]
  rw [Utf8.toByteArray_ofList, Utf8.toByteArray_ofList]
  induction label.toList with
  | nil => rfl
  | cons c text ih =>
    have split : folded (c :: text) = folded [c] ++ folded text := by
      rw [folded, ← List.singleton_append, List.filter_append, List.map_append]
      rfl
    rw [List.flatMap_cons, foldedBytes_append, ih, foldedBytes_encode, split, List.flatMap_append]

/-! ## The table of keys -/

theorem ofKey?_eq_some_iff {key : List UInt8} {encoding : Encoding} :
    ofKey? key = some encoding ↔ key = (String.ofList encoding.bareName).toByteArray.data.toList := by
  constructor
  · intro found
    obtain ⟨entry, first, rfl⟩ := Option.map_eq_some_iff.mp found
    have same := List.find?_some first
    have listed := List.mem_of_find?_eq_some first
    simp only [beq_iff_eq] at same
    rw [← same]
    simp only [keys, List.mem_cons, List.not_mem_nil, or_false] at listed
    rcases listed with rfl | rfl | rfl | rfl | rfl | rfl <;> rfl
  · rintro rfl
    cases encoding with
    | utf8 | utf8Bom => decide
    | utf16 order | utf32 order => cases order <;> decide

theorem length_key_le (encoding : Encoding) :
    (String.ofList encoding.bareName).toByteArray.data.toList.length ≤ keyRoom := by
  cases encoding with
  | utf8 | utf8Bom => decide
  | utf16 order | utf32 order => cases order <;> decide

/-! ## What a label names -/

theorem parse_eq_ok_iff {label : String} {encoding : Encoding} :
    parse label = .ok encoding ↔ folded label.toList = encoding.bareName := by
  have same : foldedBytes label.toByteArray.data.toList =
      (String.ofList encoding.bareName).toByteArray.data.toList ↔
        folded label.toList = encoding.bareName := by
    rw [foldedBytes_toByteArray, Array.toList_inj, ← ByteArray.ext_iff, String.toByteArray_inj,
      String.ofList_inj]
  have found : parse label = .ok encoding ↔ (keyOf label).toOption.bind ofKey? = some encoding := by
    unfold parse
    cases (keyOf label).toOption.bind ofKey? <;> simp
  rw [found, keyOf_eq, ← same]
  by_cases fits : (foldedBytes label.toByteArray.data.toList).length ≤ keyRoom
  · rw [if_pos fits]
    exact ofKey?_eq_some_iff
  · rw [if_neg fits]
    refine ⟨nofun, fun key => absurd ?_ fits⟩
    rw [key]
    exact length_key_le encoding

theorem parse_eq_error_iff {label : String} {e : UnknownLabel} :
    parse label = .error e ↔ e = ⟨label⟩ ∧ ∀ encoding, folded label.toList ≠ bareName encoding := by
  simp only [ne_eq, ← parse_eq_ok_iff]
  cases found : (keyOf label).toOption.bind ofKey? with
  | none => simp [parse, found, eq_comm]
  | some encoding => simp [parse, found]

theorem keyOf_ne_outside (label : String) : keyOf label ≠ .error .outside := by
  rw [keyOf_eq]
  split <;> simp

/-- A label names an encoding exactly if it is the name of that encoding, but for separators and the case
of ASCII letters. Any other label is refused, and is carried back as it was written. The block decides
nothing: a key is all that counts in the bytes of the label, or that is more than a key can have, and no
access goes outside of the block. -/
theorem parse_answers (label : String) :
    (∀ encoding, parse label = .ok encoding ↔
      (label.toList.filter fun c => c != '-' && c != '_').map Char.toLower =
        (encoding.name.toList.filter (· != '-')).map Char.toLower) ∧
    (∀ e, parse label = .error e ↔ e = ⟨label⟩ ∧ ∀ encoding : Encoding,
      (label.toList.filter fun c => c != '-' && c != '_').map Char.toLower ≠
        (encoding.name.toList.filter (· != '-')).map Char.toLower) ∧
    keyOf label =
      (if (foldedBytes label.toByteArray.data.toList).length ≤ keyRoom then
        .ok (foldedBytes label.toByteArray.data.toList)
      else .error .noRoom) ∧
    keyOf label ≠ .error .outside :=
  ⟨fun _ => parse_eq_ok_iff, fun _ => parse_eq_error_iff, keyOf_eq label, keyOf_ne_outside label⟩

-- Separators take no room. The second label has as many bytes that count as the block, the third one more.
example : parse "-_-_-_-_-_UTF-_-_-16__bE-_-_-_-_-_" = .ok (.utf16 .big) ∧
    parse "utf16beutf16beut" = .error ⟨"utf16beutf16beut"⟩ ∧
    keyOf "utf16beutf16beutf" = .error .noRoom := by decide

end UnicodeInput.Encoding
