import UnicodeInput.Proofs.Codec.Persists

/-! Bytes that are whole units of UTF-16 or UTF-32. What a decoder gives there, errors included, is a
function of the units, and so is the whole run of a caller who goes on after errors. Units are read in
any order of their bytes, and an offset counts bytes. -/
namespace UnicodeInput.Codec

/-- What a number stands for: a scalar value, or else an error. -/
def scalarItem (e : DecodeError) (value : Nat) : Item :=
  match Codespace.scalar? value with
  | some c => .ok c
  | none => .error e

theorem scalarItem_toNat (e : DecodeError) (c : Char) : scalarItem e c.toNat = .ok c := by
  rw [scalarItem, Codespace.scalar?_eq_some_iff.mpr rfl]

theorem scalarOr_eq {σ : Type} (e : DecodeError) (value : Nat) (s : σ) :
    scalarOr e value s = leaving s (scalarItem e value) := by
  rw [scalarOr, scalarItem]
  cases Codespace.scalar? value <;> rfl

variable {source : MemorySource} {order : ByteOrder} {offset : Nat}

theorem rest_skip_of_split {width unit : Nat} {units : List Nat}
    (content : source.rest = (unit :: units).flatMap (order.split width)) :
    order.split width unit <+: source.rest ∧
      (source.skip width).rest = units.flatMap (order.split width) := by
  rw [List.flatMap_cons] at content
  rw [MemorySource.rest_skip, content, List.drop_left' (order.length_split width unit)]
  exact ⟨List.prefix_append .., rfl⟩

/-! ## UTF-32 -/

namespace Utf32

def itemAt (order : ByteOrder) (offset unit : Nat) : Item :=
  if Codespace.isSurrogate unit then .error (.loneSurrogate (.utf32 order) offset unit)
  else scalarItem (.malformed (.utf32 order) offset) unit

/-- What units give, from an offset on. -/
def itemsFrom (order : ByteOrder) (offset : Nat) : List Nat → List Item
  | [] => []
  | unit :: units => itemAt order offset unit :: itemsFrom order (offset + 4) units

theorem decode_eq_itemAt (free : source.pending = none) {unit : Nat} (bound : unit < 256 ^ 4)
    (front : order.split 4 unit <+: source.rest) :
    decode order source = leaving (source.skip 4) (itemAt order source.offset unit) := by
  rw [decode_of_split free bound front, itemAt]
  split
  · rfl
  · exact scalarOr_eq ..

/-- The calls give what the units give. -/
theorem persists_itemsFrom (free : source.pending = none) {units : List Nat}
    (bounds : ∀ unit ∈ units, unit < 256 ^ 4) (content : source.rest = units.flatMap (order.split 4)) :
    ∃ rest, Persists (.utf32 order) source (itemsFrom order source.offset units) rest := by
  induction units generalizing source with
  | nil => exact ⟨source, .finished ((MemorySource.hasNext_eq_end_iff free).mpr ⟨content, rfl⟩)⟩
  | cons unit units ih =>
    have free' : (source.skip 4).pending = none := free
    rw [List.forall_mem_cons] at bounds
    obtain ⟨front, behind⟩ := rest_skip_of_split content
    obtain ⟨rest, run⟩ := ih free' bounds.2 behind
    exact ⟨rest, .call_of_cons free (ne_nil_of_split front)
      (decode_eq_itemAt free bounds.1 front) (.inl rfl) run⟩

theorem itemsFrom_append (front back : List Nat) :
    itemsFrom order offset (front ++ back) =
      itemsFrom order offset front ++ itemsFrom order (offset + 4 * front.length) back := by
  induction front generalizing offset with
  | nil => rfl
  | cons unit front ih =>
    rw [List.cons_append, itemsFrom, ih, itemsFrom, List.cons_append, List.length_cons,
      Nat.add_assoc, Nat.mul_succ, Nat.add_comm 4]

theorem itemsFrom_toNat (scalars : List Char) :
    itemsFrom order offset (scalars.map Char.toNat) = scalars.map .ok := by
  induction scalars generalizing offset with
  | nil => rfl
  | cons c scalars ih =>
    rw [List.map_cons, itemsFrom, itemAt, if_neg (not_isSurrogate_toNat c), scalarItem_toNat, ih,
      List.map_cons]

end Utf32

/-! ## UTF-16 -/

namespace Utf16

/-- The error for a unit that should be half of a pair. -/
def lone (order : ByteOrder) (offset unit : Nat) : DecodeError :=
  .loneSurrogate (.utf16 order) offset unit

/-- What a unit gives that opens no pair. -/
def itemAt (order : ByteOrder) (offset unit : Nat) : Item :=
  if Codespace.isLowSurrogate unit then .error (lone order offset unit)
  else scalarItem (.malformed (.utf16 order) offset) unit

/-- What a high surrogate gives with the unit that follows. -/
def pairAt (order : ByteOrder) (offset high low : Nat) : Item :=
  if Codespace.isLowSurrogate low then scalarItem (lone order offset high) (pairValue high low)
  else .error (lone order offset high)

/-- What units give, from an offset on. A high surrogate takes the next unit with it, whatever that is. -/
def itemsFrom (order : ByteOrder) : (offset : Nat) → List Nat → List Item
  | _, [] => []
  | offset, unit :: units =>
    if Codespace.isHighSurrogate unit then
      match units with
      | [] => [.error (lone order offset unit)]
      | low :: units => pairAt order offset unit low :: itemsFrom order (offset + 4) units
    else
      itemAt order offset unit :: itemsFrom order (offset + 2) units

theorem decode_eq_itemAt (free : source.pending = none) {unit : Nat} (bound : unit < 0x10000)
    (plain : ¬ Codespace.isHighSurrogate unit = true) (front : order.split 2 unit <+: source.rest) :
    decode order source = leaving (source.skip 2) (itemAt order source.offset unit) := by
  rw [decode_of_single free bound plain front, itemAt]
  split
  · rfl
  · exact scalarOr_eq ..

theorem decode_eq_pairAt (free : source.pending = none) {unit low : Nat}
    (high : Codespace.isHighSurrogate unit = true) (bound : low < 0x10000)
    (front : order.split 2 unit <+: source.rest) (back : order.split 2 low <+: (source.skip 2).rest) :
    decode order source = leaving (source.skip 4) (pairAt order source.offset unit low) := by
  rw [decode_of_pair free high bound front back, pairAt]
  split
  · exact scalarOr_eq ..
  · rfl

/-- The calls give what the units give. -/
theorem persists_itemsFrom (free : source.pending = none) {units : List Nat}
    (bounds : ∀ unit ∈ units, unit < 0x10000) (content : source.rest = units.flatMap (order.split 2)) :
    ∃ rest, Persists (.utf16 order) source (itemsFrom order source.offset units) rest := by
  -- The induction takes the units as the decoder does, one or two at a time.
  generalize start : source.offset = offset
  fun_induction itemsFrom order offset units generalizing source with
  | case1 => exact ⟨source, .finished ((MemorySource.hasNext_eq_end_iff free).mpr ⟨content, rfl⟩)⟩
  | case2 offset unit high =>
    subst start
    have alone : source.rest = order.split 2 unit := by simpa using content
    have free' : (source.skip 2).pending = none := free
    obtain ⟨front, ended⟩ := rest_skip_of_split content
    exact ⟨_, .call_of_cons free (ne_nil_of_split front) (decode_of_dangling free high alone)
      (.inl rfl) (.finished ((MemorySource.hasNext_eq_end_iff free').mpr ⟨ended, rfl⟩))⟩
  | case3 offset unit high low units ih =>
    subst start
    have free' : (source.skip 2).pending = none := free
    have free'' : (source.skip 4).pending = none := free
    obtain ⟨-, bounds⟩ := List.forall_mem_cons.mp bounds
    obtain ⟨bound, bounds⟩ := List.forall_mem_cons.mp bounds
    obtain ⟨front, content⟩ := rest_skip_of_split content
    obtain ⟨back, content⟩ := rest_skip_of_split content
    rw [MemorySource.skip_skip] at content
    obtain ⟨rest, run⟩ := ih free'' bounds content rfl
    exact ⟨rest, .call_of_cons free (ne_nil_of_split front)
      (decode_eq_pairAt free high bound front back) (.inl rfl) run⟩
  | case4 offset unit units plain ih =>
    subst start
    have free' : (source.skip 2).pending = none := free
    rw [List.forall_mem_cons] at bounds
    obtain ⟨front, behind⟩ := rest_skip_of_split content
    obtain ⟨rest, run⟩ := ih free' bounds.2 behind rfl
    exact ⟨rest, .call_of_cons free (ne_nil_of_split front)
      (decode_eq_itemAt free bounds.1 plain front) (.inl rfl) run⟩

theorem itemsFrom_of_single {unit : Nat} (plain : ¬ Codespace.isHighSurrogate unit = true)
    (units : List Nat) : itemsFrom order offset (unit :: units) =
      itemAt order offset unit :: itemsFrom order (offset + 2) units := by
  rw [itemsFrom.eq_def]
  exact if_neg plain

theorem itemsFrom_of_pair {unit : Nat} (high : Codespace.isHighSurrogate unit = true) (low : Nat)
    (units : List Nat) : itemsFrom order offset (unit :: low :: units) =
      pairAt order offset unit low :: itemsFrom order (offset + 4) units := by
  rw [itemsFrom.eq_def]
  exact if_pos high

theorem itemsFrom_of_dangling {unit : Nat} (high : Codespace.isHighSurrogate unit = true) :
    itemsFrom order offset [unit] = [.error (lone order offset unit)] := by
  rw [itemsFrom.eq_def]
  exact if_pos high

theorem itemsFrom_units (scalars : List Char) :
    itemsFrom order offset (scalars.flatMap fun c => units c.toNat) = scalars.map .ok := by
  induction scalars generalizing offset with
  | nil => rfl
  | cons c scalars ih =>
    rw [List.flatMap_cons, List.map_cons]
    rcases units_cases c with ⟨shape, -, high, low⟩ | ⟨high, low, hh, hl, value, shape⟩
    · rw [shape, List.singleton_append, itemsFrom_of_single (by simp [high]), ih, itemAt,
        if_neg (by simp [low]), scalarItem_toNat]
    · rw [shape, List.cons_append, List.singleton_append, itemsFrom_of_pair hh, ih, pairAt, if_pos hl,
        ← value, scalarItem_toNat]

/-- What becomes of scalar values behind units that end at `finish` and give `items` by themselves. All of
them are decoded, unless a high surrogate that ends the units takes the first one with it: its only unit,
or the first of its two, and then the other is lone too. -/
inductive Resumes (order : ByteOrder) (finish : Nat) : List Item → List Char → List Item → Prop
  | whole (items : List Item) (scalars : List Char) :
      Resumes order finish items scalars (items ++ scalars.map .ok)
  | swallowed (before : List Item) {start unit : Nat} (c : Char) (others : List Char)
      (faults : List DecodeError) : Codespace.isHighSurrogate unit = true → start + 2 = finish →
      faults.length ≤ 1 →
      Resumes order finish (before ++ [.error (lone order start unit)]) (c :: others)
        (before ++ .error (lone order start unit) :: (faults.map .error ++ others.map .ok))

theorem Resumes.cons {finish : Nat} {items all : List Item} {scalars : List Char}
    (resumes : Resumes order finish items scalars all) (item : Item) :
    Resumes order finish (item :: items) scalars (item :: all) := by
  cases resumes with
  | whole => exact .whole (item :: items) scalars
  | swallowed before c others faults high ends few =>
    exact .swallowed (item :: before) c others faults high ends few

/-- Behind a high surrogate, with nothing in front of it. -/
theorem resumes_dangling {unit : Nat} (high : Codespace.isHighSurrogate unit = true)
    (scalars : List Char) :
    Resumes order (offset + 2) [.error (lone order offset unit)] scalars
      (itemsFrom order offset (unit :: scalars.flatMap fun c => units c.toNat)) := by
  cases scalars with
  | nil =>
    rw [List.flatMap_nil, itemsFrom_of_dangling high]
    exact .whole _ []
  | cons c others =>
    rw [List.flatMap_cons]
    rcases units_cases c with ⟨shape, -, hh, hl⟩ | ⟨first, second, hh, hl, -, shape⟩
    · rw [shape, List.singleton_append, itemsFrom_of_pair high, pairAt, if_neg (by simp [hl]),
        itemsFrom_units]
      exact .swallowed [] c others [] high rfl (Nat.zero_le 1)
    · have no_low : ¬ Codespace.isLowSurrogate first = true := fun low => not_high_and_low ⟨hh, low⟩
      have no_high : ¬ Codespace.isHighSurrogate second = true := fun high => not_high_and_low ⟨high, hl⟩
      rw [shape, List.cons_append, List.singleton_append, itemsFrom_of_pair high, pairAt, if_neg no_low,
        itemsFrom_of_single no_high, itemAt, if_pos hl, itemsFrom_units]
      exact .swallowed [] c others [lone order (offset + 4) second] high rfl (Nat.le_refl 1)

/-- Only a high surrogate that stands last of all reaches into the text behind. -/
theorem resumes_itemsFrom (front : List Nat) (scalars : List Char) :
    Resumes order (offset + 2 * front.length) (itemsFrom order offset front) scalars
      (itemsFrom order offset (front ++ scalars.flatMap fun c => units c.toNat)) := by
  fun_induction itemsFrom order offset front with
  | case1 =>
    rw [List.nil_append, itemsFrom_units]
    exact .whole [] scalars
  | case2 offset unit high => exact resumes_dangling high scalars
  | case3 offset unit high low units ih =>
    have length : offset + 2 * (unit :: low :: units).length = offset + 4 + 2 * units.length := by
      rw [List.length_cons, List.length_cons]
      omega
    rw [length, List.cons_append, List.cons_append, itemsFrom_of_pair high]
    exact ih.cons _
  | case4 offset unit units plain ih =>
    have length : offset + 2 * (unit :: units).length = offset + 2 + 2 * units.length := by
      rw [List.length_cons]
      omega
    rw [length, List.cons_append, itemsFrom_of_single plain]
    exact ih.cons _

-- The pair loses its first unit to the high surrogate in front of it, and the second is lone then.
example : itemsFrom .big 0 (0xD800 :: (['😀', 'a'].flatMap fun c => units c.toNat)) =
    [.error (.loneSurrogate (.utf16 .big) 0 0xD800), .error (.loneSurrogate (.utf16 .big) 4 0xDE00),
      .ok 'a'] := by decide

end Utf16

end UnicodeInput.Codec
