import UnicodeInput.Codespace.Lemmas
import UnicodeInput.Proofs.Codec.Transcode

/-! Numbers given to be encoded, of which some are no scalar values. A number is judged by itself, whatever
the encoding and whatever has been written: a scalar value is appended, and any other number is refused with
nothing written. So a run that goes on after refusals writes what encoding the scalar values alone would,
and behind a mark that is text again. -/
namespace UnicodeInput.Codec

open Codespace (isScalar scalar?)

variable {encoding : Encoding} {values : List Nat} {sink : Array UInt8}

/-- Appends the numbers to the sink one after the other, going on after a refusal. Gives the answer to each
of them, and the sink in the end. -/
def encodeEach (encoding : Encoding) : (values : List Nat) → Array UInt8 →
    List (Except Unencodable Unit) × Array UInt8
  | [], sink => ([], sink)
  | value :: values, sink =>
    match encodeNumber encoding value sink with
    | .ok () sink =>
      let (answers, sink) := encodeEach encoding values sink
      (.ok () :: answers, sink)
    | .error e sink =>
      let (answers, sink) := encodeEach encoding values sink
      (.error e :: answers, sink)

def answerTo (encoding : Encoding) (value : Nat) : Except Unencodable Unit :=
  if isScalar value then .ok () else .error ⟨encoding, value⟩

/-! ## One number -/

section One

variable {value : Nat} {c : Char}

theorem encodeNumber_of_some (found : scalar? value = some c) :
    encodeNumber encoding value sink = .ok () (sink ++ encodeScalar encoding c) := by
  rw [encodeNumber, found]
  rfl

theorem encodeNumber_of_none (absent : scalar? value = none) :
    encodeNumber encoding value sink = .error ⟨encoding, value⟩ sink := by
  rw [encodeNumber, absent]
  rfl

theorem answerTo_of_some (found : scalar? value = some c) : answerTo encoding value = .ok () := by
  rw [answerTo, if_pos (Codespace.isScalar_of_scalar? found)]

theorem answerTo_of_none (absent : scalar? value = none) :
    answerTo encoding value = .error ⟨encoding, value⟩ := by
  rw [answerTo, if_neg (Bool.eq_false_iff.mp (Codespace.scalar?_eq_none_iff.mp absent))]

end One

/-! ## A run -/

/-- The answers do not depend on the sink, and the sink takes what is a scalar value. -/
theorem encodeEach_eq (encoding : Encoding) (values : List Nat) (sink : Array UInt8) :
    encodeEach encoding values sink = (values.map (answerTo encoding), (values.filterMap scalar?).foldl
      (fun (sink : Array UInt8) c => sink ++ encodeScalar encoding c) sink) := by
  induction values generalizing sink with
  | nil => rfl
  | cons value values ih =>
    cases found : scalar? value with
    | some c =>
      rw [encodeEach, encodeNumber_of_some found]
      dsimp only
      rw [ih, List.map_cons, answerTo_of_some found, List.filterMap_cons_some found, List.foldl_cons]
    | none =>
      rw [encodeEach, encodeNumber_of_none found]
      dsimp only
      rw [ih, List.map_cons, answerTo_of_none found, List.filterMap_cons_none found]

theorem toList_encodeEach :
    (encodeEach encoding values sink).2.toList =
      sink.toList ++ (values.filterMap scalar?).flatMap (encodeScalar encoding) := by
  rw [encodeEach_eq, toList_foldl_append]

/-- Going on only appends. -/
theorem encodeEach_prefix {more : List Nat} (longer : values <+: more) :
    (encodeEach encoding values sink).2.toList <+: (encodeEach encoding more sink).2.toList := by
  obtain ⟨later, rfl⟩ := longer
  rw [toList_encodeEach, toList_encodeEach, List.filterMap_append, List.flatMap_append,
    ← List.append_assoc]
  exact List.prefix_append _ _

/-- The call behind a run: it is accepted with the sink of the longer run, or refused with that of the
run. -/
theorem encodeNumber_encodeEach (value : Nat) :
    encodeNumber encoding value (encodeEach encoding values sink).2 =
      if isScalar value then .ok () (encodeEach encoding (values ++ [value]) sink).2
      else .error ⟨encoding, value⟩ (encodeEach encoding values sink).2 := by
  cases found : scalar? value with
  | some c =>
    rw [encodeNumber_of_some found, if_pos (Codespace.isScalar_of_scalar? found), encodeEach_eq,
      encodeEach_eq, List.filterMap_append, List.filterMap_cons_some found, List.filterMap_nil,
      List.foldl_append, List.foldl_cons, List.foldl_nil]
  | none =>
    have invalid := Codespace.scalar?_eq_none_iff.mp found
    rw [encodeNumber_of_none found, if_neg (Bool.eq_false_iff.mp invalid)]

/-- A number that is refused is as good as absent. -/
theorem encodeEach_concat_of_refused {value : Nat} (invalid : isScalar value = false) :
    (encodeEach encoding (values ++ [value]) sink).2 = (encodeEach encoding values sink).2 := by
  have absent : scalar? value = none := Codespace.scalar?_eq_none_iff.mpr invalid
  rw [encodeEach_eq, encodeEach_eq, List.filterMap_append, List.filterMap_cons_none absent,
    List.filterMap_nil, List.append_nil]

theorem decode_encodeEach (encoding : Encoding) (values : List Nat) :
    decode encoding (encodeEach encoding values (writeMark encoding #[])).2.toList =
      .ok (values.filterMap scalar?) := by
  have written : (encodeEach encoding values (writeMark encoding #[])).2.toList =
      encode encoding (values.filterMap scalar?) := by
    rw [toList_encodeEach, writeMark, encode, Array.toList_appendList, List.nil_append]
  rw [written, decode_encode]

/-- Numbers are encoded one after the other behind a mark. Refused are those that are no scalar values, each
by its number. What the sink holds stays, a refused number adds nothing, and in the end the sink decodes to
the scalar values among the numbers, in their order. -/
theorem encodeEach_marked (encoding : Encoding) (values : List Nat) :
    let run (n : Nat) := encodeEach encoding (values.take n) (writeMark encoding #[])
    let final := encodeEach encoding values (writeMark encoding #[])
    final.1 = values.map (fun v => if isScalar v then .ok () else .error ⟨encoding, v⟩) ∧
    run values.length = final ∧
    (∀ n v, values[n]? = some v → encodeNumber encoding v (run n).2 =
      if isScalar v then .ok () (run (n + 1)).2 else .error ⟨encoding, v⟩ (run n).2) ∧
    (∀ n v, values[n]? = some v → isScalar v = false → (run (n + 1)).2 = (run n).2) ∧
    (∀ m n, m ≤ n → (run m).2.toList <+: (run n).2.toList) ∧
    decode encoding final.2.toList = .ok (values.filterMap scalar?) ∧
    (values.filterMap scalar?).map Char.toNat = values.filter isScalar := by
  intro run final
  have one_more {n : Nat} {v : Nat} (offered : values[n]? = some v) :
      run (n + 1) = encodeEach encoding (values.take n ++ [v]) (writeMark encoding #[]) := by
    dsimp only [run]
    rw [List.take_add_one, offered, Option.toList_some]
  refine ⟨congrArg Prod.fst (encodeEach_eq encoding values _), ?whole, ?call, ?stays, ?appends,
    decode_encodeEach encoding values, Codespace.map_toNat_filterMap values⟩
  case whole =>
    dsimp only [run, final]
    rw [List.take_length]
  case call =>
    intro n v offered
    rw [one_more offered]
    exact encodeNumber_encodeEach v
  case stays =>
    intro n v offered invalid
    rw [one_more offered]
    exact encodeEach_concat_of_refused invalid
  case appends =>
    intro m n earlier
    exact encodeEach_prefix (List.take_prefix_take_left earlier)

/-- A surrogate and a number beyond the last code point, between two scalar values in UTF-16. -/
theorem encodeEach_marked_two_refused :
    let values := [0x61, 0xD800, 0x110000, 0x1F600]
    let run (n : Nat) := encodeEach (.utf16 .little) (values.take n) (writeMark (.utf16 .little) #[])
    (run 4).1 = [.ok (), .error ⟨.utf16 .little, 0xD800⟩, .error ⟨.utf16 .little, 0x110000⟩, .ok ()] ∧
      (run 1).2.toList = [0xFF, 0xFE, 0x61, 0x00] ∧ (run 2).2 = (run 1).2 ∧ (run 3).2 = (run 2).2 ∧
      (run 4).2.toList = [0xFF, 0xFE, 0x61, 0x00, 0x3D, 0xD8, 0x00, 0xDE] ∧
      decode (.utf16 .little) (run 4).2.toList = .ok ['a', Char.ofNat 0x1F600] := by
  intro values run
  obtain ⟨answers, -, -, stays, -, decoded, -⟩ := encodeEach_marked (.utf16 .little) values
  exact ⟨answers, rfl, stays 1 _ rfl rfl, stays 2 _ rfl rfl, rfl, decoded⟩

end UnicodeInput.Codec
