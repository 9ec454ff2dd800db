import UnicodeInput.Proofs.Codec.Transcode

/-! Telling an encoding by its mark. Two marks begin the same bytes only if one of them begins the other,
and that is so for one pair: the mark of little-endian UTF-16 begins that of little-endian UTF-32. So the
longest mark that begins some bytes is the one found. Text that has been encoded is told by its mark
unless it completes another one: U+0000 does behind the mark of little-endian UTF-16, and U+FEFF does
where UTF-8 writes no mark. -/
namespace UnicodeInput

/-! ## Marks -/

namespace Encoding

variable {bytes : List UInt8} {one other found : Encoding}

theorem mem_all (encoding : Encoding) : encoding ∈ all := by
  cases encoding with
  | utf8 | utf8Bom => decide
  | utf16 order | utf32 order => cases order <;> decide

theorem mem_byMark_iff : found ∈ byMark ↔ found ≠ .utf8 := by
  have each : ∀ encoding ∈ all, encoding ∈ byMark ↔ encoding ≠ .utf8 := by decide
  exact each found (mem_all found)

theorem mark_prefix_mark_iff :
    one.mark <+: other.mark ↔
      one = other ∨ one = .utf8 ∨ (one = .utf16 .little ∧ other = .utf32 .little) := by
  have each : ∀ one ∈ all, ∀ other ∈ all, one.mark <+: other.mark ↔
      one = other ∨ one = .utf8 ∨ (one = .utf16 .little ∧ other = .utf32 .little) := by decide
  exact each one (mem_all one) other (mem_all other)

theorem mark_injective (same : one.mark = other.mark) : one = other := by
  have each : ∀ one ∈ all, ∀ other ∈ all, one.mark = other.mark → one = other := by decide
  exact each one (mem_all one) other (mem_all other) same

/-- Every mark has this byte, but for those of UTF-8. -/
theorem mem_mark (unmarked : one ≠ .utf8) (optional : one ≠ .utf8Bom) : 0xFE ∈ one.mark := by
  have each : ∀ encoding ∈ all, encoding ≠ .utf8 → encoding ≠ .utf8Bom → 0xFE ∈ encoding.mark := by
    decide
  exact each one (mem_all one) unmarked optional

/-- Of two marks that begin the same bytes, one begins the other. -/
theorem mark_cases (front : one.mark <+: bytes) (front' : other.mark <+: bytes) :
    other.mark <+: one.mark ∨ one = .utf8 ∨ (one = .utf16 .little ∧ other = .utf32 .little) := by
  rcases List.prefix_or_prefix_of_prefix front' front with shorter | longer
  · exact .inl shorter
  · rcases mark_prefix_mark_iff.mp longer with rfl | apart
    · exact .inl List.prefix_rfl
    · exact .inr apart

/-- The longest mark is looked for first. -/
theorem detect_of_utf32_little (front : (utf32 .little).mark <+: bytes) :
    detect bytes = some (.utf32 .little) :=
  List.find?_cons_of_pos (List.isPrefixOf_iff_prefix.mpr front)

theorem longest_of_detect (detected : detect bytes = some found) :
    found ≠ .utf8 ∧ found.mark <+: bytes ∧
      ∀ other : Encoding, other.mark <+: bytes → other.mark <+: found.mark := by
  have marked := mem_byMark_iff.mp (List.mem_of_find?_eq_some detected)
  have begins := List.find?_some (show byMark.find? _ = some found from detected)
  have front : found.mark <+: bytes := List.isPrefixOf_iff_prefix.mp begins
  refine ⟨marked, front, fun other front' => ?_⟩
  rcases mark_cases front front' with shorter | rfl | ⟨rfl, rfl⟩
  · exact shorter
  · exact absurd rfl marked
  · rw [detect_of_utf32_little front'] at detected
    cases detected

/-- What is found is the encoding with the longest mark that begins the bytes, if any mark does. -/
theorem detect_eq_some_iff :
    detect bytes = some found ↔ found ≠ .utf8 ∧ found.mark <+: bytes ∧
      ∀ other : Encoding, other.mark <+: bytes → other.mark <+: found.mark := by
  refine ⟨longest_of_detect, fun given => ?_⟩
  obtain ⟨marked, front, longest⟩ := given
  cases detected : detect bytes with
  | none =>
    have absent := List.find?_eq_none.mp detected found (mem_byMark_iff.mpr marked)
    exact absurd (List.isPrefixOf_iff_prefix.mpr front) absent
  | some other =>
    obtain ⟨-, front', longest'⟩ := longest_of_detect detected
    have same := (longest other front').eq_of_length_le (longest' found front).length_le
    rw [mark_injective same]

theorem detect_eq_none_iff :
    detect bytes = none ↔ ∀ other : Encoding, other.mark <+: bytes → other = .utf8 := by
  rw [detect, List.find?_eq_none]
  refine forall_congr' fun other => ?_
  rw [mem_byMark_iff, List.isPrefixOf_iff_prefix, ne_eq, not_imp_not]

end Encoding

namespace Codec

variable {encoding : Encoding} {scalars : List Char}

/-! ## What begins encoded text -/

/-- Encoded text begins with the bytes of its first scalar value and of no other. -/
theorem encodeScalar_prefix_flatMap_iff {c : Char} :
    encodeScalar encoding c <+: scalars.flatMap (encodeScalar encoding) ↔ scalars.head? = some c := by
  cases scalars with
  | nil => simpa using encodeScalar_ne_nil encoding c
  | cons first scalars =>
    rw [List.flatMap_cons, List.head?_cons, Option.some.injEq]
    constructor
    · exact fun front => eq_of_encodeScalar_prefix (List.prefix_append ..) front
    · rintro rfl
      exact List.prefix_append ..

/-- UTF-8 never has the byte that is in all other marks. -/
theorem Utf8.not_mem_encode (c : Char) : 0xFE ∉ encode c := by
  obtain ⟨first, lead, tail, shape, announced, -, follow, -⟩ := spells_encode c
  rw [shape, List.mem_cons, not_or]
  constructor
  · rintro rfl
    cases announced
  · intro inside
    exact absurd (follow _ inside) (by decide)

theorem mark_prefix_encode_utf8_iff {other : Encoding} :
    other.mark <+: encode .utf8 scalars ↔
      other = .utf8 ∨ other = .utf8Bom ∧ scalars.head? = some Codespace.markScalar := by
  have content : encode .utf8 scalars = scalars.flatMap (encodeScalar .utf8) := rfl
  have bom : Encoding.utf8Bom.mark = encodeScalar .utf8 Codespace.markScalar := rfl
  rw [content]
  by_cases unmarked : other = .utf8
  · subst unmarked
    exact iff_of_true List.nil_prefix (.inl rfl)
  by_cases optional : other = .utf8Bom
  · subst optional
    rw [bom, encodeScalar_prefix_flatMap_iff]
    simp
  · refine iff_of_false (fun front => ?_) (by simp [unmarked, optional])
    have inside := front.subset (Encoding.mem_mark unmarked optional)
    obtain ⟨c, -, inside⟩ := List.mem_flatMap.mp inside
    exact Utf8.not_mem_encode c inside

/-! ## Encoded text -/

/-- Text that begins with what completes another mark: U+FEFF is one where UTF-8 writes none, and U+0000
makes the mark of little-endian UTF-16 that of UTF-32. -/
def Mistaken (encoding : Encoding) (scalars : List Char) : Prop :=
  encoding = .utf8 ∧ scalars.head? = some Codespace.markScalar ∨
    encoding = .utf16 .little ∧ scalars.head? = some '\x00'

theorem detect_encode_of_marked (marked : encoding ≠ .utf8) (told : ¬ Mistaken encoding scalars) :
    Encoding.detect (encode encoding scalars) = some encoding := by
  have begins : encoding.mark <+: encode encoding scalars := List.prefix_append ..
  refine Encoding.detect_eq_some_iff.mpr ⟨marked, begins, fun other front => ?_⟩
  rcases Encoding.mark_cases begins front with shorter | rfl | ⟨rfl, rfl⟩
  · exact shorter
  · exact absurd rfl marked
  -- The longer mark goes on with the two zeros that are U+0000 in UTF-16.
  · have zeros : encodeScalar (.utf16 .little) '\x00' <+:
        scalars.flatMap (encodeScalar (.utf16 .little)) :=
      (List.prefix_append_right_inj (Encoding.utf16 .little).mark).mp front
    exact absurd (.inr ⟨rfl, encodeScalar_prefix_flatMap_iff.mp zeros⟩) told

theorem detect_encode_utf16_of_nul (nul : scalars.head? = some '\x00') :
    Encoding.detect (encode (.utf16 .little) scalars) = some (.utf32 .little) := by
  have zeros : encodeScalar (.utf16 .little) '\x00' <+:
      scalars.flatMap (encodeScalar (.utf16 .little)) := encodeScalar_prefix_flatMap_iff.mpr nul
  exact Encoding.detect_of_utf32_little
    ((List.prefix_append_right_inj (Encoding.utf16 .little).mark).mpr zeros)

theorem detect_encode_utf8_of_mark (first : scalars.head? = some Codespace.markScalar) :
    Encoding.detect (encode .utf8 scalars) = some .utf8Bom := by
  have begins := mark_prefix_encode_utf8_iff.mpr (.inr ⟨rfl, first⟩)
  refine Encoding.detect_eq_some_iff.mpr ⟨nofun, begins, fun other front => ?_⟩
  rcases mark_prefix_encode_utf8_iff.mp front with rfl | ⟨rfl, -⟩
  · exact List.nil_prefix
  · exact List.prefix_rfl

theorem detect_encode_utf8_of_plain (plain : scalars.head? ≠ some Codespace.markScalar) :
    Encoding.detect (encode .utf8 scalars) = none := by
  refine Encoding.detect_eq_none_iff.mpr fun other front => ?_
  rcases mark_prefix_encode_utf8_iff.mp front with rfl | ⟨-, first⟩
  · rfl
  · exact absurd first plain

/-- What is found where text has been encoded. -/
theorem detect_encode_eq (encoding : Encoding) (scalars : List Char) :
    Encoding.detect (encode encoding scalars) =
      match encoding with
      | .utf8 => if scalars.head? = some Codespace.markScalar then some .utf8Bom else none
      | .utf16 .little =>
        if scalars.head? = some '\x00' then some (.utf32 .little) else some (.utf16 .little)
      | other => some other := by
  split
  · split
    next first => exact detect_encode_utf8_of_mark first
    next plain => exact detect_encode_utf8_of_plain plain
  · split
    next nul => exact detect_encode_utf16_of_nul nul
    next other => exact detect_encode_of_marked nofun (by simp [Mistaken, other])
  next other unmarked longer =>
    refine detect_encode_of_marked unmarked fun mistaken => ?_
    rcases mistaken with ⟨same, -⟩ | ⟨same, -⟩
    · exact unmarked same
    · exact longer same

/-! ## Decoding as detected -/

theorem length_utf16_le_utf32 (order : ByteOrder) (c : Char) :
    (encodeScalar (.utf16 order) c).length ≤ (encodeScalar (.utf32 order) c).length := by
  change (Utf16.encode order c).length ≤ (Utf32.encode order c).length
  rw [Utf32.encode, order.length_split]
  rcases Utf16.units_cases c with ⟨shape, -⟩ | ⟨_, _, -, -, -, shape⟩ <;> simp [Utf16.encode, shape]

theorem length_flatMap_utf16_le_utf32 (order : ByteOrder) (scalars : List Char) :
    (scalars.flatMap (encodeScalar (.utf16 order))).length ≤
      (scalars.flatMap (encodeScalar (.utf32 order))).length := by
  induction scalars with
  | nil => exact Nat.le_refl 0
  | cons c scalars ih =>
    rw [List.flatMap_cons, List.flatMap_cons, List.length_append, List.length_append]
    exact Nat.add_le_add (length_utf16_le_utf32 order c) ih

/-- UTF-32 is longer, if only by its mark. -/
theorem encode_utf16_ne_encode_utf32 (scalars : List Char) :
    encode (.utf16 .little) scalars ≠ encode (.utf32 .little) scalars := by
  intro same
  have lengths := congrArg List.length same
  have shorter := length_flatMap_utf16_le_utf32 .little scalars
  rw [encode, encode, List.length_append, List.length_append] at lengths
  have marks : (Encoding.utf16 .little).mark.length < (Encoding.utf32 .little).mark.length := by decide
  omega

/-- Where the encoding found is not the one used, it does not give the text back. -/
theorem decode_ne_of_mistaken (mistaken : Mistaken encoding scalars) {found : Encoding}
    (detected : Encoding.detect (encode encoding scalars) = some found) :
    decode found (encode encoding scalars) ≠ .ok scalars := by
  rcases mistaken with ⟨rfl, first⟩ | ⟨rfl, nul⟩
  · rw [detect_encode_utf8_of_mark first, Option.some.injEq] at detected
    obtain ⟨rest, rfl⟩ := List.head?_eq_some_iff.mp first
    subst detected
    have behind : decode .utf8Bom (encode .utf8 (Codespace.markScalar :: rest)) = .ok rest :=
      decode_encode .utf8Bom rest
    rw [behind]
    simp
  · rw [detect_encode_utf16_of_nul nul, Option.some.injEq] at detected
    subst detected
    rw [ne_eq, decode_ok_iff_encode]
    rintro (same | ⟨other, -⟩)
    · exact encode_utf16_ne_encode_utf32 scalars same
    · cases other

theorem decode_detected_iff {found : Encoding}
    (detected : Encoding.detect (encode encoding scalars) = some found) :
    decode found (encode encoding scalars) = .ok scalars ↔ ¬ Mistaken encoding scalars := by
  refine ⟨fun decoded mistaken => decode_ne_of_mistaken mistaken detected decoded, fun told => ?_⟩
  by_cases unmarked : encoding = .utf8
  · subst unmarked
    have plain : scalars.head? ≠ some Codespace.markScalar := fun first => told (.inl ⟨rfl, first⟩)
    rw [detect_encode_utf8_of_plain plain] at detected
    cases detected
  · rw [detect_encode_of_marked unmarked told, Option.some.injEq] at detected
    rw [← detected, decode_encode]

/-- An encoding that requires its mark decodes nothing without it. -/
theorem mark_prefix_of_decode {bytes : List UInt8} (required : encoding.requiresMark = true)
    (decoded : decode encoding bytes = .ok scalars) : encoding.mark <+: bytes := by
  rcases (decode_ok_iff_encode encoding bytes scalars).mp decoded with rfl | ⟨rfl, -⟩
  · exact List.prefix_append ..
  · cases required

theorem prefix_of_decode_twice {bytes : List UInt8} {one other : Encoding} {text others : List Char}
    (required : one.requiresMark = true) (required' : other.requiresMark = true) (differ : one ≠ other)
    (decoded : decode one bytes = .ok text) (decoded' : decode other bytes = .ok others) :
    [0xFF, 0xFE, 0x00, 0x00] <+: bytes := by
  have front := mark_prefix_of_decode required decoded
  have front' := mark_prefix_of_decode required' decoded'
  rcases Encoding.mark_cases front front' with shorter | rfl | ⟨rfl, rfl⟩
  · rcases Encoding.mark_prefix_mark_iff.mp shorter with rfl | rfl | ⟨rfl, rfl⟩
    · exact absurd rfl differ
    · cases required'
    · exact front
  · cases required
  · exact front'

/-- Encoded text is detected as what it is, if that has a mark, and as nothing if it has none. Two texts
are mistaken: U+0000 at the front makes little-endian UTF-16 look like UTF-32, and U+FEFF at the front
makes UTF-8 look marked. The encoding that is found gives back the text except in these two cases. And the
same bytes are text in two encodings that require a mark only behind the mark of little-endian UTF-32. -/
theorem detect_encode (encoding : Encoding) (scalars : List Char) :
    (Encoding.detect (encode encoding scalars) =
      match encoding with
      | .utf8 => if scalars.head? = some Codespace.markScalar then some .utf8Bom else none
      | .utf16 .little =>
        if scalars.head? = some '\x00' then some (.utf32 .little) else some (.utf16 .little)
      | other => some other) ∧
    (∀ found, Encoding.detect (encode encoding scalars) = some found →
      (decode found (encode encoding scalars) = .ok scalars ↔ ¬ Mistaken encoding scalars)) ∧
    ∀ (bytes : List UInt8) (one other : Encoding) (text others : List Char),
      one.requiresMark = true → other.requiresMark = true → one ≠ other →
      decode one bytes = .ok text → decode other bytes = .ok others →
      [0xFF, 0xFE, 0x00, 0x00] <+: bytes :=
  ⟨detect_encode_eq encoding scalars, fun _ detected => decode_detected_iff detected,
    fun _ _ _ _ _ required required' differ decoded decoded' =>
      prefix_of_decode_twice required required' differ decoded decoded'⟩

/-- One letter in big-endian UTF-16 comes back. A U+0000 in little-endian UTF-16 is the mark of UTF-32 with
no text behind it, and is text in both. -/
theorem detect_encode_two_readings :
    let bytes := encode (.utf16 .little) ['\x00']
    (Encoding.detect (encode (.utf16 .big) ['a']) = some (.utf16 .big) ∧
      decode (.utf16 .big) (encode (.utf16 .big) ['a']) = .ok ['a']) ∧
    (Encoding.detect bytes = some (.utf32 .little) ∧ decode (.utf32 .little) bytes ≠ .ok ['\x00']) ∧
    decode (.utf16 .little) bytes = .ok ['\x00'] ∧ decode (.utf32 .little) bytes = .ok [] ∧
    [0xFF, 0xFE, 0x00, 0x00] <+: bytes := by
  intro bytes
  obtain ⟨-, back, -⟩ := detect_encode (.utf16 .big) ['a']
  obtain ⟨-, lost, twice⟩ := detect_encode (.utf16 .little) ['\x00']
  have told : ¬ Mistaken (.utf16 .big) ['a'] := by
    rintro (⟨same, -⟩ | ⟨same, -⟩) <;> cases same
  have sixteen : decode (.utf16 .little) bytes = .ok ['\x00'] := rfl
  have thirtytwo : decode (.utf32 .little) bytes = .ok [] := rfl
  refine ⟨⟨by decide, (back _ (by decide)).mpr told⟩, ⟨by decide, fun decoded => ?_⟩, sixteen, thirtytwo,
    twice bytes (.utf16 .little) (.utf32 .little) _ _ rfl rfl nofun sixteen thirtytwo⟩
  exact (lost _ (by decide)).mp decoded (.inr ⟨rfl, rfl⟩)

end Codec

end UnicodeInput
