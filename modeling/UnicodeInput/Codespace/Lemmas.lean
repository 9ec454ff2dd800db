import UnicodeInput.Codespace

/-! The numbers of the scalar values, by `scalar?` and by `isScalar`. -/
namespace UnicodeInput.Codespace

/-- A scalar value is found by its own number and by no other. -/
theorem scalar?_eq_some_iff {v : Nat} {c : Char} : scalar? v = some c ↔ c.toNat = v := by
  by_cases h : v.isValidChar
  · rw [scalar?, dif_pos h, Option.some.injEq]
    have value : (Char.ofNatAux v h).toNat = v := rfl
    exact ⟨fun e => e ▸ value, fun e => Char.toNat_inj.mp (value.trans e.symm)⟩
  · rw [scalar?, dif_neg h]
    constructor
    · intro e
      cases e
    · rintro rfl
      exact absurd c.valid h

theorem toNat_ofNat {v : Nat} (valid : v.isValidChar) : (Char.ofNat v).toNat = v := by
  rw [Char.ofNat, dif_pos valid]
  rfl

/-- The numbers of the scalar values are those that a character can have. -/
theorem isScalar_iff {v : Nat} : isScalar v = true ↔ v.isValidChar := by
  unfold isScalar isSurrogate last Nat.isValidChar
  simp
  show _ ↔ v < 0xD800 ∨ (0xDFFF < v ∧ v < 0x110000)
  omega

theorem isSome_scalar? (v : Nat) : (scalar? v).isSome = isScalar v := by
  rw [Bool.eq_iff_iff, isScalar_iff]
  by_cases h : v.isValidChar
  · rw [scalar?, dif_pos h]
    exact iff_of_true rfl h
  · rw [scalar?, dif_neg h]
    exact iff_of_false Bool.false_ne_true h

theorem isScalar_of_scalar? {v : Nat} {c : Char} (found : scalar? v = some c) : isScalar v = true := by
  rw [← isSome_scalar?, found, Option.isSome_some]

theorem scalar?_eq_none_iff {v : Nat} : scalar? v = none ↔ isScalar v = false := by
  rw [← isSome_scalar?, Option.isSome_eq_false_iff, Option.isNone_iff_eq_none]

/-- The scalar values among numbers are those that are numbered so. -/
theorem map_toNat_filterMap (values : List Nat) :
    (values.filterMap scalar?).map Char.toNat = values.filter isScalar := by
  have guards : (fun v => (scalar? v).map Char.toNat) = Option.guard isScalar := by
    funext v
    rw [Option.guard, ← isSome_scalar?]
    cases found : scalar? v with
    | some c => exact congrArg some (scalar?_eq_some_iff.mp found)
    | none => rfl
  rw [List.map_filterMap, guards, List.filterMap_eq_filter]

end UnicodeInput.Codespace
