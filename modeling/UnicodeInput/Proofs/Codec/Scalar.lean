import Mathlib.Algebra.Group.Nat.Defs
import UnicodeInput.ByteOrder.Lemmas
import UnicodeInput.Codec.Scalar
import UnicodeInput.Proofs.Codec.Utf8

/-! One scalar value, in every encoding. The statement is the same for all six: decoding succeeds with a
scalar value exactly where the bytes that encode it stand next, and takes no others. A byte string has
at most one such prefix, since the decoder is a function. -/
namespace UnicodeInput.Codec

variable {source after : MemorySource}

/-- A number is read where the bytes that write it stand next. -/
theorem join_eq_ok_iff {encoding : Encoding} {order : ByteOrder} (free : source.pending = none)
    {width value : Nat} :
    (order.join <$> nextBytes encoding width) source = .ok value after ↔
      order.split width value <+: source.rest ∧ value < 256 ^ width ∧ after = source.skip width := by
  rw [map_eq_ok_iff]
  constructor
  · intro read
    obtain ⟨bytes, took, rfl⟩ := read
    obtain ⟨front, length, rfl⟩ := (nextBytes_eq_ok_iff free).mp took
    have bound := order.join_lt bytes
    have same := order.split_join bytes
    rw [length] at bound same
    exact ⟨same.symm ▸ front, bound, rfl⟩
  · intro given
    obtain ⟨front, bound, rfl⟩ := given
    refine ⟨order.split width value, ?_, ?_⟩
    · exact (nextBytes_eq_ok_iff free).mpr ⟨front, order.length_split width value, rfl⟩
    · rw [order.join_split, Nat.mod_eq_of_lt bound]

theorem ne_nil_of_split {order : ByteOrder} {width value : Nat} {bytes : List UInt8}
    (front : order.split (width + 1) value <+: bytes) : bytes ≠ [] := by
  rintro rfl
  simpa using front.length_le

namespace Utf16

theorem isHighSurrogate_iff (v : Nat) :
    Codespace.isHighSurrogate v = true ↔ 0xD800 ≤ v ∧ v ≤ 0xDBFF := by
  simp [Codespace.isHighSurrogate]

theorem isLowSurrogate_iff (v : Nat) :
    Codespace.isLowSurrogate v = true ↔ 0xDC00 ≤ v ∧ v ≤ 0xDFFF := by
  simp [Codespace.isLowSurrogate]

theorem lt_of_isHighSurrogate {v : Nat} (high : Codespace.isHighSurrogate v = true) : v < 0x10000 := by
  rw [isHighSurrogate_iff] at high
  omega

theorem lt_of_isLowSurrogate {v : Nat} (low : Codespace.isLowSurrogate v = true) : v < 0x10000 := by
  rw [isLowSurrogate_iff] at low
  omega

theorem not_high_and_low {v : Nat} :
    ¬ (Codespace.isHighSurrogate v = true ∧ Codespace.isLowSurrogate v = true) := by
  rw [isHighSurrogate_iff, isLowSurrogate_iff]
  omega

/-! ## Pairs -/

theorem units_pairValue {high low : Nat} (hh : Codespace.isHighSurrogate high = true)
    (hl : Codespace.isLowSurrogate low = true) : units (pairValue high low) = [high, low] := by
  rw [isHighSurrogate_iff] at hh
  rw [isLowSurrogate_iff] at hl
  have first : 0xD800 + (pairValue high low - 0x10000) / 0x400 = high := by
    unfold pairValue; omega
  have second : 0xDC00 + (pairValue high low - 0x10000) % 0x400 = low := by
    unfold pairValue; omega
  have large : ¬ pairValue high low < 0x10000 := by unfold pairValue; omega
  rw [units, if_neg large, first, second]

theorem exists_pair {value : Nat} (large : 0x10000 ≤ value) (top : value < 0x110000) :
    ∃ high low, Codespace.isHighSurrogate high = true ∧ Codespace.isLowSurrogate low = true ∧
      pairValue high low = value := by
  refine ⟨0xD800 + (value - 0x10000) / 0x400, 0xDC00 + (value - 0x10000) % 0x400, ?_, ?_, ?_⟩
  · rw [isHighSurrogate_iff]; omega
  · rw [isLowSurrogate_iff]; omega
  · unfold pairValue; omega

/-- A scalar value is one unit that is no surrogate, or a pair of them. -/
theorem units_cases (c : Char) :
    (units c.toNat = [c.toNat] ∧ c.toNat < 0x10000 ∧
      Codespace.isHighSurrogate c.toNat = false ∧ Codespace.isLowSurrogate c.toNat = false) ∨
    ∃ high low, Codespace.isHighSurrogate high = true ∧ Codespace.isLowSurrogate low = true ∧
      c.toNat = pairValue high low ∧ units c.toNat = [high, low] := by
  obtain ⟨top, hole⟩ := Utf8.toNat_bounds c
  by_cases small : c.toNat < 0x10000
  · refine .inl ⟨by rw [units, if_pos small], small, ?_, ?_⟩
    · rw [← Bool.not_eq_true, isHighSurrogate_iff]
      omega
    · rw [← Bool.not_eq_true, isLowSurrogate_iff]
      omega
  · obtain ⟨high, low, hh, hl, value⟩ := exists_pair (Nat.le_of_not_lt small) top
    exact .inr ⟨high, low, hh, hl, value.symm, value ▸ units_pairValue hh hl⟩

theorem units_lt (c : Char) : ∀ unit ∈ units c.toNat, unit < 0x10000 := by
  rcases units_cases c with ⟨shape, bound, -⟩ | ⟨high, low, hh, hl, -, shape⟩
  · simpa [shape] using bound
  · rw [shape, List.forall_mem_cons, List.forall_mem_singleton]
    exact ⟨lt_of_isHighSurrogate hh, lt_of_isLowSurrogate hl⟩

/-! ## The bytes of a scalar value -/

theorem encode_of_lt {c : Char} (small : c.toNat < 0x10000) (order : ByteOrder) :
    encode order c = order.split 2 c.toNat := by
  rw [encode, units, if_pos small]
  simp

theorem encode_of_pairValue {c : Char} {high low : Nat} (value : c.toNat = pairValue high low)
    (hh : Codespace.isHighSurrogate high = true) (hl : Codespace.isLowSurrogate low = true)
    (order : ByteOrder) : encode order c = order.split 2 high ++ order.split 2 low := by
  rw [encode, value, units_pairValue hh hl]
  simp

theorem encode_ne_nil (order : ByteOrder) (c : Char) : encode order c ≠ [] := by
  apply List.ne_nil_of_length_pos
  rcases units_cases c with ⟨shape, -⟩ | ⟨_, _, -, -, -, shape⟩ <;> simp [encode, shape]

/-! ## The decoder -/

theorem nextUnit_eq_ok_iff {order : ByteOrder} (free : source.pending = none) {unit : Nat} :
    nextUnit order source = .ok unit after ↔
      order.split 2 unit <+: source.rest ∧ unit < 0x10000 ∧ after = source.skip 2 :=
  join_eq_ok_iff free

theorem encode_of_decode {order : ByteOrder} (free : source.pending = none) {c : Char}
    (run : decode order source = .ok c after) :
    encode order c <+: source.rest ∧ after = source.skip (encode order c).length := by
  have free' : (source.skip 2).pending = none := free
  rw [decode, here_bind_of_free free] at run
  obtain ⟨unit, _, read, run⟩ := bind_eq_ok_iff.mp run
  obtain ⟨front, bound, rfl⟩ := (nextUnit_eq_ok_iff free).mp read
  by_cases hh : Codespace.isHighSurrogate unit = true
  · rw [if_pos hh] at run
    obtain ⟨answer, _, asked, run⟩ := bind_eq_ok_iff.mp run
    obtain ⟨-, rfl⟩ := more_eq_ok_iff.mp asked
    cases answer with
    | false => exact absurd run throw_ne_ok
    | true =>
      rw [if_pos rfl] at run
      obtain ⟨low, _, read, run⟩ := bind_eq_ok_iff.mp run
      obtain ⟨back, -, rfl⟩ := (nextUnit_eq_ok_iff free').mp read
      by_cases hl : Codespace.isLowSurrogate low = true
      · rw [if_pos hl] at run
        obtain ⟨value, rfl⟩ := scalarOr_eq_ok_iff.mp run
        rw [encode_of_pairValue value hh hl]
        exact ⟨append_prefix_iff.mpr ⟨front, by simpa using back⟩,
          by simp⟩
      · rw [if_neg hl] at run
        exact absurd run throw_ne_ok
  · rw [if_neg hh] at run
    by_cases hl : Codespace.isLowSurrogate unit = true
    · rw [if_pos hl] at run
      exact absurd run throw_ne_ok
    · rw [if_neg hl] at run
      obtain ⟨rfl, rfl⟩ := scalarOr_eq_ok_iff.mp run
      rw [encode_of_lt bound]
      exact ⟨front, by simp⟩

/-- A unit that opens no pair is judged by itself. -/
theorem decode_of_single {order : ByteOrder} (free : source.pending = none) {unit : Nat}
    (bound : unit < 0x10000) (plain : ¬ Codespace.isHighSurrogate unit = true)
    (front : order.split 2 unit <+: source.rest) :
    decode order source =
      (if Codespace.isLowSurrogate unit then throw (.loneSurrogate (.utf16 order) source.offset unit)
        else scalarOr (.malformed (.utf16 order) source.offset) unit :
          EStateM DecodeError MemorySource Char) (source.skip 2) := by
  rw [decode, here_bind_of_free free, bind_of_ok ((nextUnit_eq_ok_iff free).mpr ⟨front, bound, rfl⟩),
    if_neg plain]

/-- A high surrogate is judged by the unit that follows. -/
theorem decode_of_pair {order : ByteOrder} (free : source.pending = none) {unit low : Nat}
    (high : Codespace.isHighSurrogate unit = true) (bound : low < 0x10000)
    (front : order.split 2 unit <+: source.rest) (back : order.split 2 low <+: (source.skip 2).rest) :
    decode order source =
      (if Codespace.isLowSurrogate low then
          scalarOr (.loneSurrogate (.utf16 order) source.offset unit) (pairValue unit low)
        else throw (.loneSurrogate (.utf16 order) source.offset unit) :
          EStateM DecodeError MemorySource Char) (source.skip 4) := by
  have free' : (source.skip 2).pending = none := free
  have follows : (source.skip 2).hasNext = true :=
    (MemorySource.hasNext_eq_true_iff free').mpr (ne_nil_of_split back)
  rw [decode, here_bind_of_free free,
    bind_of_ok ((nextUnit_eq_ok_iff free).mpr ⟨front, lt_of_isHighSurrogate high, rfl⟩), if_pos high,
    bind_of_ok (more_eq_ok_iff.mpr ⟨follows, rfl⟩), if_pos rfl,
    bind_of_ok ((nextUnit_eq_ok_iff free').mpr ⟨back, bound, rfl⟩), MemorySource.skip_skip]

/-- A high surrogate that ends the input is lone. -/
theorem decode_of_dangling {order : ByteOrder} (free : source.pending = none) {unit : Nat}
    (high : Codespace.isHighSurrogate unit = true) (content : source.rest = order.split 2 unit) :
    decode order source =
      .error (.loneSurrogate (.utf16 order) source.offset unit) (source.skip 2) := by
  have front : order.split 2 unit <+: source.rest := content ▸ List.prefix_rfl
  have ended : (source.skip 2).hasNext = false := by
    simp [MemorySource.hasNext, free, content]
  rw [decode, here_bind_of_free free,
    bind_of_ok ((nextUnit_eq_ok_iff free).mpr ⟨front, lt_of_isHighSurrogate high, rfl⟩), if_pos high,
    bind_of_ok (more_eq_ok_iff.mpr ⟨ended, rfl⟩)]
  rfl

theorem decode_of_encode {order : ByteOrder} (free : source.pending = none) {c : Char}
    (whole : encode order c <+: source.rest) :
    decode order source = .ok c (source.skip (encode order c).length) := by
  rcases units_cases c with ⟨-, bound, high, low⟩ | ⟨high, low, hh, hl, value, -⟩
  · rw [encode_of_lt bound] at whole ⊢
    rw [decode_of_single free bound (Bool.eq_false_iff.mp high) whole, low]
    exact scalarOr_eq_ok_iff.mpr ⟨rfl, by simp⟩
  · rw [encode_of_pairValue value hh hl] at whole ⊢
    obtain ⟨front, back⟩ := append_prefix_iff.mp whole
    rw [order.length_split, ← MemorySource.rest_skip] at back
    rw [decode_of_pair free hh (lt_of_isLowSurrogate hl) front back, if_pos hl]
    exact scalarOr_eq_ok_iff.mpr ⟨value, by simp⟩

theorem decode_eq_ok_iff {order : ByteOrder} (free : source.pending = none) {c : Char} :
    decode order source = .ok c after ↔
      encode order c <+: source.rest ∧ after = source.skip (encode order c).length := by
  constructor
  · exact encode_of_decode free
  · intro h
    obtain ⟨whole, rfl⟩ := h
    exact decode_of_encode free whole

end Utf16

namespace Utf32

theorem encode_ne_nil (order : ByteOrder) (c : Char) : encode order c ≠ [] := by
  apply List.ne_nil_of_length_pos
  simp [encode, ByteOrder.split]

theorem decode_of_split {order : ByteOrder} (free : source.pending = none) {unit : Nat}
    (bound : unit < 256 ^ 4) (front : order.split 4 unit <+: source.rest) :
    decode order source =
      (if Codespace.isSurrogate unit then throw (.loneSurrogate (.utf32 order) source.offset unit)
        else scalarOr (.malformed (.utf32 order) source.offset) unit :
          EStateM DecodeError MemorySource Char) (source.skip 4) := by
  rw [decode, here_bind_of_free free, bind_of_ok ((join_eq_ok_iff free).mpr ⟨front, bound, rfl⟩)]

theorem toNat_lt (c : Char) : c.toNat < 256 ^ 4 := by
  obtain ⟨top, -⟩ := Utf8.toNat_bounds c
  omega

theorem not_isSurrogate_toNat (c : Char) : ¬ Codespace.isSurrogate c.toNat = true := by
  obtain ⟨-, hole⟩ := Utf8.toNat_bounds c
  simpa [Codespace.isSurrogate] using hole

theorem decode_eq_ok_iff {order : ByteOrder} (free : source.pending = none) {c : Char} :
    decode order source = .ok c after ↔
      encode order c <+: source.rest ∧ after = source.skip (encode order c).length := by
  constructor
  · intro run
    rw [decode, here_bind_of_free free] at run
    obtain ⟨value, _, read, run⟩ := bind_eq_ok_iff.mp run
    obtain ⟨front, -, rfl⟩ := (join_eq_ok_iff free).mp read
    by_cases surrogate : Codespace.isSurrogate value = true
    · rw [if_pos surrogate] at run
      exact absurd run throw_ne_ok
    · rw [if_neg surrogate] at run
      obtain ⟨rfl, rfl⟩ := scalarOr_eq_ok_iff.mp run
      rw [encode, order.length_split]
      exact ⟨front, rfl⟩
  · intro given
    obtain ⟨whole, rfl⟩ := given
    rw [decode_of_split free (toNat_lt c) whole, if_neg (not_isSurrogate_toNat c), encode,
      order.length_split]
    exact scalarOr_eq_ok_iff.mpr ⟨rfl, rfl⟩

end Utf32

/-! ## Any encoding -/

theorem encodeScalar_ne_nil (encoding : Encoding) (c : Char) : encodeScalar encoding c ≠ [] := by
  cases encoding with
  | utf8 | utf8Bom => exact Utf8.encode_ne_nil c
  | utf16 order => exact Utf16.encode_ne_nil order c
  | utf32 order => exact Utf32.encode_ne_nil order c

theorem decodeScalar_eq_ok_iff {encoding : Encoding} (free : source.pending = none) {c : Char} :
    decodeScalar encoding source = .ok c after ↔
      encodeScalar encoding c <+: source.rest ∧
        after = source.skip (encodeScalar encoding c).length := by
  cases encoding with
  | utf8 | utf8Bom => exact Utf8.decode_eq_ok_iff free
  | utf16 order => exact Utf16.decode_eq_ok_iff free
  | utf32 order => exact Utf32.decode_eq_ok_iff free

theorem rest_of_decodeScalar {encoding : Encoding} (free : source.pending = none) {c : Char}
    (h : decodeScalar encoding source = .ok c after) :
    after.pending = none ∧ source.rest = encodeScalar encoding c ++ after.rest ∧
      after.offset = source.offset + (encodeScalar encoding c).length := by
  obtain ⟨⟨tail, split⟩, rfl⟩ := (decodeScalar_eq_ok_iff free).mp h
  refine ⟨free, ?_, rfl⟩
  rw [MemorySource.rest_skip, ← split, List.drop_left]

/-- The encodings of no two scalar values begin the same bytes. -/
theorem eq_of_encodeScalar_prefix {encoding : Encoding} {bytes : List UInt8} {c d : Char}
    (first : encodeScalar encoding c <+: bytes) (second : encodeScalar encoding d <+: bytes) :
    c = d := by
  have free : (MemorySource.ofBytes bytes).pending = none := rfl
  have left := (decodeScalar_eq_ok_iff free).mpr ⟨first, rfl⟩
  have right := (decodeScalar_eq_ok_iff free).mpr ⟨second, rfl⟩
  rw [left] at right
  injection right

theorem length_le_length_flatMap (encoding : Encoding) (scalars : List Char) :
    scalars.length ≤ (scalars.flatMap (encodeScalar encoding)).length := by
  induction scalars with
  | nil => exact Nat.zero_le _
  | cons c scalars ih =>
    have taken := List.length_pos_iff.mpr (encodeScalar_ne_nil encoding c)
    rw [List.flatMap_cons, List.length_append, List.length_cons]
    omega

end UnicodeInput.Codec
