import UnicodeInput.Proofs.Codec.OptionalMark

/-! The two byte orders. To turn the bytes of each unit around is to change the order, of the mark and of
what is behind it. Bytes behind the last whole unit stay as they are: they are too few for either order, and
are missed at the same place. A decoder takes whole units, or all that is left where a unit is cut short. So
two decoders, one for each order, are at the same place before each call, and the bytes ahead of the one are
those ahead of the other turned around, also if these are not what any text is written as. -/
namespace UnicodeInput

/-- The bytes of each whole unit of `width` turned around. -/
def mirror (width : Nat) (bytes : List UInt8) : List UInt8 :=
  if 0 < width ∧ width ≤ bytes.length then
    (bytes.take width).reverse ++ mirror width (bytes.drop width)
  else bytes
termination_by bytes.length
decreasing_by
  rw [List.length_drop]
  omega

section Mirror

variable {width : Nat} {bytes : List UInt8}

theorem mirror_of_le (positive : 0 < width) (whole : width ≤ bytes.length) :
    mirror width bytes = (bytes.take width).reverse ++ mirror width (bytes.drop width) := by
  rw [mirror, if_pos ⟨positive, whole⟩]

theorem mirror_of_lt (short : bytes.length < width) : mirror width bytes = bytes := by
  rw [mirror, if_neg fun whole => Nat.not_le_of_lt short whole.2]

@[simp] theorem length_mirror (width : Nat) (bytes : List UInt8) :
    (mirror width bytes).length = bytes.length := by
  fun_induction mirror with
  | case1 bytes whole ih =>
    rw [List.length_append, List.length_reverse, ih, List.length_drop, List.length_take_of_le whole.2,
      Nat.add_sub_cancel' whole.2]
  | case2 => rfl

theorem mirror_append {unit : List UInt8} (positive : 0 < width) (size : unit.length = width)
    (bytes : List UInt8) : mirror width (unit ++ bytes) = unit.reverse ++ mirror width bytes := by
  have whole : width ≤ (unit ++ bytes).length := by
    rw [List.length_append, size]
    exact Nat.le_add_right ..
  rw [mirror_of_le positive whole, List.take_left' size, List.drop_left' size]

/-- A unit turned around is the same number in the other order. -/
theorem join_reverse (unit : List UInt8) :
    ByteOrder.little.join unit.reverse = ByteOrder.big.join unit :=
  congrArg ByteOrder.valueOf unit.reverse_reverse

/-- Units written in the one order are those written in the other, turned around. -/
theorem mirror_flatMap_split (positive : 0 < width) (units : List Nat) :
    mirror width (units.flatMap (ByteOrder.big.split width)) =
      units.flatMap (ByteOrder.little.split width) := by
  induction units with
  | nil => exact mirror_of_lt positive
  | cons unit units ih =>
    rw [List.flatMap_cons, List.flatMap_cons,
      mirror_append positive (ByteOrder.big.length_split width unit), ih]
    rfl

end Mirror

/-- The source with the bytes that are not read yet turned around. -/
def MemorySource.mirrored (width : Nat) (source : MemorySource) : MemorySource :=
  { source with rest := mirror width source.rest }

namespace MemorySource

variable {width : Nat} {source : MemorySource}

theorem position_mirrored (width : Nat) (source : MemorySource) :
    (source.mirrored width).position = source.position := rfl

theorem hasNext_mirrored (width : Nat) (source : MemorySource) :
    (source.mirrored width).hasNext = source.hasNext := by
  have empty : (mirror width source.rest).isEmpty = source.rest.isEmpty := by
    rw [Bool.eq_iff_iff, List.isEmpty_iff_length_eq_zero, List.isEmpty_iff_length_eq_zero, length_mirror]
  rw [hasNext, hasNext, mirrored, empty]

theorem mirrored_of_lt (short : source.rest.length < width) : source.mirrored width = source := by
  rw [mirrored, mirror_of_lt short]

theorem skip_mirrored (positive : 0 < width) (whole : width ≤ source.rest.length) :
    (source.mirrored width).skip width = (source.skip width).mirrored width := by
  have size : (source.rest.take width).reverse.length = width := by
    rw [List.length_reverse, List.length_take_of_le whole]
  rw [mirrored, mirrored, skip, skip, mirror_of_le positive whole, List.drop_left' size]

end MemorySource

namespace Codec

/-! ## One call -/

/-- One source is the other turned around, and neither holds a byte given back. -/
structure Mirrored (width : Nat) (source other : MemorySource) : Prop where
  free : other.pending = none
  eq : source = other.mirrored width

/-- The cause in the little-endian encoding of a kind for one in the big-endian encoding. -/
def Renamed (kind : ByteOrder → Encoding) (e e' : DecodeError) : Prop := e = e'.naming (kind .little)

/-- Readers give the same in both orders, but for the name in an error. -/
abbrev MirrorEach (kind : ByteOrder → Encoding) (width : Nat) {α : Type} :
    EStateM.Result DecodeError MemorySource α → EStateM.Result DecodeError MemorySource α → Prop :=
  SideBySide (Mirrored width) (Renamed kind)

variable {kind : ByteOrder → Encoding} {width : Nat} {source other : MemorySource}

namespace Mirrored

theorem position (mirrored : Mirrored width source other) : source.position = other.position := by
  rw [mirrored.eq, MemorySource.position_mirrored]

theorem hasNext (mirrored : Mirrored width source other) : source.hasNext = other.hasNext := by
  rw [mirrored.eq, MemorySource.hasNext_mirrored]

theorem malformed (mirrored : Mirrored width source other) :
    Renamed kind (.malformed (kind .little) source.position)
      (.malformed (kind .big) other.position) :=
  congrArg (DecodeError.malformed (kind .little)) mirrored.position

theorem loneSurrogate (mirrored : Mirrored width source other) (unit : Nat) :
    Renamed kind (.loneSurrogate (kind .little) source.position unit)
      (.loneSurrogate (kind .big) other.position unit) :=
  congrArg (DecodeError.loneSurrogate (kind .little) · unit) mirrored.position

/-- A unit is read as the same number, or is cut short at the same place. -/
theorem unit (mirrored : Mirrored width source other) (positive : 0 < width) :
    MirrorEach kind width ((ByteOrder.little.join <$> nextBytes (kind .little) width) source)
      ((ByteOrder.big.join <$> nextBytes (kind .big) width) other) := by
  obtain ⟨free, rfl⟩ := mirrored
  rcases Nat.lt_or_ge other.rest.length width with short | whole
  · -- What is left is no unit in either order. It is the same bytes on both sides, and all are taken.
    have ended : (other.skip other.rest.length).rest.length < width := by simpa using positive
    have lacks (encoding : Encoding) : nextBytes encoding width other = _ :=
      (nextBytes_eq_error_iff free).mpr ⟨short, rfl, rfl⟩
    rw [MemorySource.mirrored_of_lt short, map_eq_error_iff.mpr (lacks (kind .little)),
      map_eq_error_iff.mpr (lacks (kind .big))]
    exact .error rfl ⟨free, (MemorySource.mirrored_of_lt ended).symm⟩
  · have size : (other.rest.take width).length = width := List.length_take_of_le whole
    have given : nextBytes (kind .big) width other = .ok (other.rest.take width) (other.skip width) :=
      (nextBytes_eq_ok_iff free).mpr ⟨List.take_prefix .., size, rfl⟩
    have given' : nextBytes (kind .little) width (other.mirrored width) =
        .ok (other.rest.take width).reverse ((other.skip width).mirrored width) := by
      have free' : (other.mirrored width).pending = none := free
      rw [nextBytes_eq_ok_iff free', ← MemorySource.skip_mirrored positive whole]
      exact ⟨⟨_, (mirror_of_le positive whole).symm⟩, List.length_reverse.trans size, rfl⟩
    rw [map_eq_ok_iff.mpr ⟨_, given, rfl⟩, map_eq_ok_iff.mpr ⟨_, given', rfl⟩, join_reverse]
    exact .ok _ ⟨free, rfl⟩

theorem more (mirrored : Mirrored width source other) :
    MirrorEach kind width ((ByteSource.more : EStateM DecodeError MemorySource Bool) source)
      ((ByteSource.more : EStateM DecodeError MemorySource Bool) other) := by
  change MirrorEach kind width (.ok source.hasNext source) (.ok other.hasNext other)
  rw [mirrored.hasNext]
  exact .ok _ mirrored

end Mirrored

theorem Utf16.mirrored_decode (mirrored : Mirrored 2 source other) :
    MirrorEach .utf16 2 (decode .little source) (decode .big other) := by
  refine SideBySide.bind (x := nextUnit .little) (y := nextUnit .big)
    (mirrored.unit (by decide)) fun unit _ _ _ _ behind => ?_
  split
  · refine behind.more.bind fun answer _ _ _ _ behind => ?_
    split
    · refine SideBySide.bind (x := nextUnit .little) (y := nextUnit .big)
        (behind.unit (by decide)) fun low _ _ _ _ behind => ?_
      split
      · exact sideBySide_scalarOr behind (mirrored.loneSurrogate unit) _
      · exact .error (mirrored.loneSurrogate unit) behind
    · exact .error (mirrored.loneSurrogate unit) behind
  · split
    · exact .error (mirrored.loneSurrogate unit) behind
    · exact sideBySide_scalarOr behind mirrored.malformed unit

theorem Utf32.mirrored_decode (mirrored : Mirrored 4 source other) :
    MirrorEach .utf32 4 (decode .little source) (decode .big other) := by
  refine SideBySide.bind (x := ByteOrder.little.join <$> nextBytes (.utf32 .little) 4)
    (y := ByteOrder.big.join <$> nextBytes (.utf32 .big) 4)
    (mirrored.unit (by decide)) fun unit _ _ _ _ behind => ?_
  split
  · exact .error (mirrored.loneSurrogate unit) behind
  · exact sideBySide_scalarOr behind mirrored.malformed unit

/-! ## Runs -/

/-- Two decoders of one kind, each in one of the orders, at the same place. -/
inductive Decoder.Mirrored (kind : ByteOrder → Encoding) (width : Nat) :
    Decoder MemorySource → Decoder MemorySource → Prop
  | intro {source other : MemorySource} (failed : Bool) : Codec.Mirrored width source other →
      Decoder.Mirrored kind width { source, encoding := kind .little, failed }
        { source := other, encoding := kind .big, failed }

namespace Decoder.Mirrored

variable {decoder opposite : Decoder MemorySource}

theorem position (mirrored : Mirrored kind width decoder opposite) :
    decoder.source.position = opposite.source.position := by
  obtain ⟨failed, mirrored⟩ := mirrored
  exact mirrored.position

variable (calls : ∀ {source other : MemorySource}, Codec.Mirrored width source other →
  MirrorEach kind width (decodeScalar (kind .little) source) (decodeScalar (kind .big) other))
include calls

theorem next (mirrored : Mirrored kind width decoder opposite) :
    decoder.next.1 = opposite.next.1.map (Except.mapError (DecodeError.naming (kind .little))) ∧
      Mirrored kind width decoder.next.2 opposite.next.2 := by
  obtain @⟨source, other, failed, mirrored⟩ := mirrored
  cases failed with
  | true => exact ⟨rfl, .intro true mirrored⟩
  | false =>
    have asked : ByteSource.hasNext source = (other.hasNext, source) := Prod.ext mirrored.hasNext rfl
    have asked' : ByteSource.hasNext other = (other.hasNext, other) := rfl
    cases more : other.hasNext with
    | false =>
      rw [more] at asked asked'
      rw [next_of_end asked, next_of_end asked']
      exact ⟨rfl, .intro false mirrored⟩
    | true =>
      rw [more] at asked asked'
      have both := calls mirrored
      generalize run : decodeScalar (kind .little) source = result at both
      generalize run' : decodeScalar (kind .big) other = result' at both
      cases both with
      | ok c behind =>
        rw [next_of_ok asked run, next_of_ok asked' run']
        exact ⟨rfl, .intro false behind⟩
      | error same behind =>
        rw [next_of_error asked run, next_of_error asked' run']
        exact ⟨congrArg (some ∘ Except.error) same, .intro true behind⟩

theorem call (mirrored : Mirrored kind width decoder opposite) (n : Nat) :
    decoder.call n = (opposite.call n).map (Except.mapError (DecodeError.naming (kind .little))) := by
  induction n generalizing decoder opposite with
  | zero => exact (mirrored.next calls).1
  | succ n ih => exact ih (mirrored.next calls).2

theorem after (mirrored : Mirrored kind width decoder opposite) (n : Nat) :
    Mirrored kind width (decoder.after n) (opposite.after n) := by
  induction n generalizing decoder opposite with
  | zero => exact mirrored
  | succ n ih => exact ih (mirrored.next calls).2

end Decoder.Mirrored

/-! ## Texts -/

/-- What a text is written as in an encoding with a mark, in units. -/
theorem encode_eq_flatMap_split {encoding : Encoding} {order : ByteOrder} {units : Char → List Nat}
    (marked : encoding.mark = order.split width 0xFEFF)
    (each : ∀ c, encodeScalar encoding c = (units c).flatMap (order.split width))
    (scalars : List Char) :
    encode encoding scalars = (0xFEFF :: scalars.flatMap units).flatMap (order.split width) := by
  rw [encode, marked, List.flatMap_cons, List.flatMap_assoc, List.flatMap_congr fun c _ => each c]

/-- A kind of encoding in its two byte orders, each being the other with the bytes of every unit turned
around, whatever is written and whatever is read. -/
structure Mirrors (kind : ByteOrder → Encoding) (width : Nat) : Prop where
  /-- The same text in both orders, mark included. -/
  encode : ∀ scalars, encode (kind .little) scalars = mirror width (encode (kind .big) scalars)
  /-- The items of two decoders on any bytes, one after the other. -/
  call : ∀ bytes n,
    Decoder.call n { source := MemorySource.ofBytes (mirror width bytes), encoding := kind .little } =
      (Decoder.call n { source := MemorySource.ofBytes bytes, encoding := kind .big }).map
        (Except.mapError (DecodeError.naming (kind .little)))
  /-- Where the two decoders are after as many calls. -/
  position : ∀ bytes n,
    ByteSource.position (Decoder.after n
      { source := MemorySource.ofBytes (mirror width bytes), encoding := kind .little }).source =
    ByteSource.position (Decoder.after n
      { source := MemorySource.ofBytes bytes, encoding := kind .big }).source

theorem mirrored_ofBytes (width : Nat) (bytes : List UInt8) :
    Mirrored width (MemorySource.ofBytes (mirror width bytes)) (MemorySource.ofBytes bytes) :=
  ⟨rfl, rfl⟩

theorem mirrors_of_units (units : Char → List Nat) (positive : 0 < width)
    (marked : ∀ order, (kind order).mark = order.split width 0xFEFF)
    (each : ∀ order c, encodeScalar (kind order) c = (units c).flatMap (order.split width))
    (calls : ∀ {source other : MemorySource}, Mirrored width source other →
      MirrorEach kind width (decodeScalar (kind .little) source) (decodeScalar (kind .big) other)) :
    Mirrors kind width where
  encode scalars := by
    rw [encode_eq_flatMap_split (marked .little) (each .little),
      encode_eq_flatMap_split (marked .big) (each .big), mirror_flatMap_split positive]
  call bytes n := Decoder.Mirrored.call calls (.intro false (mirrored_ofBytes width bytes)) n
  position bytes n := (Decoder.Mirrored.after calls (.intro false (mirrored_ofBytes width bytes)) n).position

/-- In UTF-16 and in UTF-32 the two byte orders mirror each other, on every text and on every input. -/
theorem byte_orders_mirror_each_other : Mirrors .utf16 2 ∧ Mirrors .utf32 4 := by
  constructor
  · refine mirrors_of_units (fun c => Utf16.units c.toNat) (by decide) ?_ ?_ Utf16.mirrored_decode
    · intro order
      cases order <;> rfl
    · intro order c
      rfl
  · refine mirrors_of_units (fun c => [c.toNat]) (by decide) ?_ ?_ Utf32.mirrored_decode
    · intro order
      cases order <;> rfl
    · intro order c
      exact (List.append_nil _).symm

-- Half a unit behind a high surrogate is the same byte in both orders.
example : mirror 2 [0xD8, 0x3D, 0x41] = [0x3D, 0xD8, 0x41] := by cbv

end Codec

end UnicodeInput
