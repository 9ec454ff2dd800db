import UnicodeInput.Proofs.Codec.Outcome

/-! Text behind garbage. Whatever bytes precede it, a caller who goes on after errors gets its scalar
values again. In UTF-8 a call takes one byte and others only if they continue a sequence, which no first
byte of a scalar value does. Units of UTF-16 and of UTF-32 are in step with the text if the garbage is
made of whole units; then a high surrogate alone can reach into the text, and takes no more than the first
scalar value. -/
namespace UnicodeInput.Codec

variable {source : MemorySource} {encoding : Encoding}

/-! ## UTF-8 -/

namespace Utf8

/-- One call takes a byte and some that continue a sequence, whatever it gives. -/
theorem exists_item (kind : encoding = .utf8 ∨ encoding = .utf8Bom) (free : source.pending = none)
    {first : UInt8} {rest : List UInt8} (ahead : source.rest = first :: rest) :
    ∃ item left tail, decodeScalar encoding source = leaving left item ∧ tail <+: rest ∧
      (∀ byte ∈ tail, isContinuation byte = true) ∧ Leaves left (source.skip (tail.length + 1)) := by
  have decodes : decodeScalar encoding source = decode encoding source := by
    rcases kind with rfl | rfl <;> rfl
  obtain ⟨item, n, outcome⟩ := exists_outcome encoding source.offset source.rest
  obtain ⟨left, run, leaves⟩ := finds_of_outcome free outcome
  rw [ahead] at outcome
  obtain ⟨tail, front, follow, rfl⟩ := outcome.exists_tail
  rw [Nat.add_comm] at leaves
  exact ⟨item, left, tail, decodes.trans run, front, follow, leaves⟩

/-- No scalar value begins with a byte that continues one. -/
theorem not_isContinuation_of_encode {c : Char} {first : UInt8} {tail : List UInt8}
    (shape : encode c = first :: tail) : isContinuation first = false := by
  obtain ⟨lead, announces, behind, shape', announced, -⟩ := spells_encode c
  obtain rfl : first = lead := (List.cons.inj (shape.symm.trans shape')).1
  rw [← Bool.not_eq_true, isContinuation_iff]
  obtain ⟨bound, -⟩ | ⟨bound, -⟩ | ⟨bound, -⟩ | ⟨bound, -⟩ := Lead.ofByte?_cases announced <;> omega

/-- So bytes that continue a sequence stop where the encodings of some scalar values begin. -/
theorem prefix_of_continuations {tail garbage : List UInt8} {scalars : List Char}
    (front : tail <+: garbage ++ scalars.flatMap encode)
    (follow : ∀ byte ∈ tail, isContinuation byte = true) : tail <+: garbage := by
  rcases List.prefix_or_prefix_of_prefix front (List.prefix_append ..) with inside | ⟨more, rfl⟩
  · exact inside
  rw [List.prefix_append_right_inj] at front
  cases more with
  | nil => exact (List.append_nil garbage).symm ▸ List.prefix_rfl
  | cons byte more =>
    have continues := follow byte (by simp)
    cases scalars with
    | nil => exact absurd (List.prefix_nil.mp front) (List.cons_ne_nil byte more)
    | cons c scalars =>
      obtain ⟨first, rest, shape⟩ := List.exists_cons_of_ne_nil (encode_ne_nil c)
      rw [List.flatMap_cons, shape, List.cons_append, List.cons_prefix_cons] at front
      obtain ⟨rfl, -⟩ := front
      rw [not_isContinuation_of_encode shape] at continues
      cases continues

/-- Behind any bytes, the last calls give the scalar values that are encoded there. -/
theorem persists (kind : encoding = .utf8 ∨ encoding = .utf8Bom) (free : source.pending = none)
    {garbage : List UInt8} {scalars : List Char}
    (content : source.rest = garbage ++ scalars.flatMap (encodeScalar encoding)) :
    ∃ items rest, Persists encoding source (items ++ scalars.map .ok) rest := by
  -- The induction is on the garbage that is left. Each call takes its first byte and more of it only.
  induction length : garbage.length using Nat.strongRecOn generalizing source garbage with
  | ind length ih =>
    subst length
    cases garbage with
    | nil =>
      obtain ⟨rest, run⟩ := Persists.of_flatMap free content
      exact ⟨[], rest, run⟩
    | cons first garbage =>
      obtain ⟨item, left, tail, made, front, follow, leaves⟩ := exists_item kind free content
      have encodes : encodeScalar encoding = encode := by rcases kind with rfl | rfl <;> rfl
      rw [encodes] at front
      obtain ⟨behind, rfl⟩ := prefix_of_continuations front follow
      have further : (source.skip (tail.length + 1)).rest =
          behind ++ scalars.flatMap (encodeScalar encoding) := by
        rw [MemorySource.rest_skip, content]
        simp
      have free' : (source.skip (tail.length + 1)).pending = none := free
      have less : behind.length < (first :: (tail ++ behind)).length := by
        rw [List.length_cons, List.length_append]
        omega
      obtain ⟨items, rest, run⟩ := ih _ less free' further rfl
      refine ⟨item :: items, rest, .call_of_cons free ?_ made leaves run⟩
      rw [content]
      exact List.cons_ne_nil first _

end Utf8

/-! ## Any garbage -/

/-- Calls on `bytes` as long as there is more give `items`, and by `Persists.unique` nothing else. -/
def Gives (encoding : Encoding) (bytes : List UInt8) (items : List Item) : Prop :=
  ∃ rest, Persists encoding (MemorySource.ofBytes bytes) items rest

variable {order : ByteOrder}

theorem Utf16.gives_itemsFrom {units : List Nat} (bounds : ∀ unit ∈ units, unit < 0x10000) :
    Gives (.utf16 order) (units.flatMap (order.split 2)) (itemsFrom order 0 units) :=
  persists_itemsFrom rfl bounds rfl

theorem Utf16.gives_append {garbage : List Nat} (bounds : ∀ unit ∈ garbage, unit < 0x10000)
    (scalars : List Char) :
    Gives (.utf16 order) (garbage.flatMap (order.split 2) ++ scalars.flatMap (encode order))
      (itemsFrom order 0 (garbage ++ scalars.flatMap fun c => units c.toNat)) := by
  have text : scalars.flatMap (encode order) =
      (scalars.flatMap fun c => units c.toNat).flatMap (order.split 2) := List.flatMap_assoc.symm
  rw [text, ← List.flatMap_append]
  exact gives_itemsFrom (List.forall_mem_append.mpr
    ⟨bounds, List.forall_mem_flatMap.mpr fun c _ => units_lt c⟩)

theorem Utf32.gives_itemsFrom {units : List Nat} (bounds : ∀ unit ∈ units, unit < 256 ^ 4) :
    Gives (.utf32 order) (units.flatMap (order.split 4)) (itemsFrom order 0 units) :=
  persists_itemsFrom rfl bounds rfl

theorem Utf32.gives_append {garbage : List Nat} (bounds : ∀ unit ∈ garbage, unit < 256 ^ 4)
    (scalars : List Char) :
    Gives (.utf32 order) (garbage.flatMap (order.split 4) ++ scalars.flatMap (encode order))
      (itemsFrom order 0 garbage ++ scalars.map .ok) := by
  have text : scalars.flatMap (encode order) = (scalars.map Char.toNat).flatMap (order.split 4) := by
    rw [List.flatMap_map]
    rfl
  rw [text, ← List.flatMap_append, ← itemsFrom_toNat, ← itemsFrom_append]
  exact gives_itemsFrom (List.forall_mem_append.mpr
    ⟨bounds, List.forall_mem_map.mpr fun c _ => toNat_lt c⟩)

/-- Behind any garbage of whole units the last results are the scalar values of the text, each once and in
order. In UTF-16 the first of them is lost if the garbage ends in a high surrogate without its other half,
and then one more error at most stands between what the garbage gives and the rest. In UTF-16 and in
UTF-32 the garbage gives what it gives with nothing behind it. -/
theorem decoding_recovers (garbage : List UInt8) (scalars : List Char) :
    (∀ encoding, encoding = .utf8 ∨ encoding = .utf8Bom →
      ∃ items, Gives encoding (garbage ++ scalars.flatMap (encodeScalar encoding))
        (items ++ scalars.map .ok)) ∧
    (∀ order, 2 ∣ garbage.length →
      ∃ items all, Gives (.utf16 order) garbage items ∧
        Gives (.utf16 order) (garbage ++ scalars.flatMap (encodeScalar (.utf16 order))) all ∧
        Utf16.Resumes order garbage.length items scalars all) ∧
    ∀ order, 4 ∣ garbage.length →
      ∃ items, Gives (.utf32 order) garbage items ∧
        Gives (.utf32 order) (garbage ++ scalars.flatMap (encodeScalar (.utf32 order)))
          (items ++ scalars.map .ok) := by
  refine ⟨?_, ?_, ?_⟩
  · intro encoding kind
    have free : (MemorySource.ofBytes (garbage ++ scalars.flatMap (encodeScalar encoding))).pending =
        none := rfl
    exact Utf8.persists kind free rfl
  · intro order whole
    obtain ⟨units, size, bounds, rfl⟩ := order.exists_flatMap_split whole
    refine ⟨_, _, Utf16.gives_itemsFrom bounds, Utf16.gives_append bounds scalars, ?_⟩
    rw [size, ← Nat.zero_add (2 * _)]
    exact Utf16.resumes_itemsFrom units scalars
  · intro order whole
    obtain ⟨units, -, bounds, rfl⟩ := order.exists_flatMap_split whole
    exact ⟨_, Utf32.gives_itemsFrom bounds, Utf32.gives_append bounds scalars⟩

/-- The garbage ends in half a sequence of three bytes, or in a high surrogate. -/
theorem decoding_recovers_two_broken_sequences :
    (∃ items, Gives .utf8 ([0xE2, 0x82, 0xD8, 0x00] ++ ['😀', 'a'].flatMap Utf8.encode)
      (items ++ [.ok '😀', .ok 'a'])) ∧
    (2 ∣ 4 ∧ ∃ items all, Gives (.utf16 .big) [0xE2, 0x82, 0xD8, 0x00] items ∧
      Gives (.utf16 .big) ([0xE2, 0x82, 0xD8, 0x00] ++ ['😀', 'a'].flatMap (Utf16.encode .big)) all ∧
      Utf16.Resumes .big 4 items ['😀', 'a'] all) ∧
    (4 ∣ 4 ∧ ∃ items, Gives (.utf32 .little) [0xE2, 0x82, 0xD8, 0x00] items ∧
      Gives (.utf32 .little) ([0xE2, 0x82, 0xD8, 0x00] ++ ['😀', 'a'].flatMap (Utf32.encode .little))
        (items ++ [.ok '😀', .ok 'a'])) := by
  obtain ⟨utf8, utf16, utf32⟩ := decoding_recovers [0xE2, 0x82, 0xD8, 0x00] ['😀', 'a']
  have pairs : 2 ∣ 4 := ⟨2, rfl⟩
  have quads : 4 ∣ 4 := ⟨1, rfl⟩
  exact ⟨utf8 .utf8 (.inl rfl), ⟨pairs, utf16 .big pairs⟩, quads, utf32 .little quads⟩

end UnicodeInput.Codec
