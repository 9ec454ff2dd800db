import Mathlib.Algebra.Group.Nat.Defs
import UnicodeInput.ByteOrder

/-! Reading and writing numbers in a byte order undo each other: `join_split` as far as the width
reaches, `split_join` on all bytes. -/
namespace UnicodeInput.ByteOrder

@[simp] theorem length_digits (width value : Nat) : (digits width value).length = width := by
  induction width generalizing value with
  | zero => rfl
  | succ width ih => simp [digits, ih]

theorem valueOf_concat (bytes : List UInt8) (byte : UInt8) :
    valueOf (bytes ++ [byte]) = valueOf bytes * 256 + byte.toNat := by
  simp [valueOf]

/-- Digits read as the number they were taken from, as far as they reach. -/
theorem valueOf_digits (width value : Nat) : valueOf (digits width value) = value % 256 ^ width := by
  induction width generalizing value with
  | zero => simp [digits, valueOf, Nat.mod_one]
  | succ width ih =>
    have step : value % 256 ^ (width + 1) = value % 256 + 256 * (value / 256 % 256 ^ width) := by
      rw [Nat.pow_succ', Nat.mod_mul]
    rw [digits, valueOf_concat, ih, UInt8.toNat_ofNat', step]
    omega

/-- Bytes are the digits of the number they read as. -/
theorem digits_valueOf (bytes : List UInt8) : digits bytes.length (valueOf bytes) = bytes := by
  suffices h : ∀ (width : Nat) (bytes : List UInt8), bytes.length = width →
      digits width (valueOf bytes) = bytes from h _ bytes rfl
  intro width
  induction width with
  | zero => intro bytes h; simp [digits, List.eq_nil_of_length_eq_zero h]
  | succ width ih =>
    intro bytes h
    have ne : bytes ≠ [] := by rintro rfl; simp at h
    obtain ⟨front, last, rfl⟩ : ∃ front last, bytes = front ++ [last] :=
      ⟨_, _, (List.dropLast_concat_getLast ne).symm⟩
    have bound := last.toNat_lt
    have front_eq : (valueOf front * 256 + last.toNat) / 256 = valueOf front := by omega
    rw [valueOf_concat, digits, front_eq, ih front (by simpa using h)]
    congr 2
    apply UInt8.toNat_inj.mp
    rw [UInt8.toNat_ofNat']
    omega

@[simp] theorem arrange_arrange (order : ByteOrder) (bytes : List UInt8) :
    order.arrange (order.arrange bytes) = bytes := by
  cases order <;> simp [arrange]

@[simp] theorem length_arrange (order : ByteOrder) (bytes : List UInt8) :
    (order.arrange bytes).length = bytes.length := by
  cases order <;> simp [arrange]

@[simp] theorem length_split (order : ByteOrder) (width value : Nat) :
    (order.split width value).length = width := by
  simp [split]

/-- What is written in an order reads in it as the same number, as far as the width reaches. -/
theorem join_split (order : ByteOrder) (width value : Nat) :
    order.join (order.split width value) = value % 256 ^ width := by
  simp [join, split, valueOf_digits]

/-- What reads in an order as a number is what is written for that number. -/
theorem split_join (order : ByteOrder) (bytes : List UInt8) :
    order.split bytes.length (order.join bytes) = bytes := by
  have h := digits_valueOf (order.arrange bytes)
  rw [length_arrange] at h
  simp [join, split, h]

theorem join_lt (order : ByteOrder) (bytes : List UInt8) :
    order.join bytes < 256 ^ bytes.length := by
  have value := order.join_split bytes.length (order.join bytes)
  rw [order.split_join] at value
  rw [value]
  exact Nat.mod_lt _ (Nat.pow_pos (by decide))

/-- Bytes that fill units of a width write some. -/
theorem exists_flatMap_split (order : ByteOrder) {width : Nat} {bytes : List UInt8}
    (whole : width ∣ bytes.length) :
    ∃ units : List Nat, bytes.length = width * units.length ∧ (∀ unit ∈ units, unit < 256 ^ width) ∧
      bytes = units.flatMap (order.split width) := by
  obtain ⟨n, size⟩ := whole
  induction n generalizing bytes with
  | zero => exact ⟨[], size, nofun, List.length_eq_zero_iff.mp size⟩
  | succ n ih =>
    rw [Nat.mul_succ] at size
    have first : (bytes.take width).length = width := by
      rw [List.length_take, size]
      exact Nat.min_eq_left (Nat.le_add_left ..)
    have others : (bytes.drop width).length = width * n := by
      rw [List.length_drop, size, Nat.add_sub_cancel]
    obtain ⟨units, count, bounds, behind⟩ := ih others
    have bound := order.join_lt (bytes.take width)
    have front := order.split_join (bytes.take width)
    rw [first] at bound front
    refine ⟨order.join (bytes.take width) :: units, ?_, List.forall_mem_cons.mpr ⟨bound, bounds⟩, ?_⟩
    · rw [List.length_cons, Nat.mul_succ, ← count, others, size]
    · rw [List.flatMap_cons, front, ← behind, List.take_append_drop]

end UnicodeInput.ByteOrder
