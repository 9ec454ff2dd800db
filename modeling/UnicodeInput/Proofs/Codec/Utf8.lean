import Mathlib.Data.List.Basic
import UnicodeInput.Codec.Utf8
import UnicodeInput.Codespace.Lemmas
import UnicodeInput.Proofs.Codec.Bytes

/-! The UTF-8 decoder against the UTF-8 writer. What the decoder takes for a scalar value is a lead byte
with the continuation bytes it announces, whose value is that of the scalar and not too small for so
many bytes. `spells_iff` says that these are the bytes the writer gives, and no others: there is no
overlong form, no encoded surrogate and no value past the codespace among them. -/
namespace UnicodeInput.Codec.Utf8

/-- The rule of the decoder without the source: a lead byte, then what it announces. -/
def Spells (bytes : List UInt8) (c : Char) : Prop :=
  ∃ first lead tail, bytes = first :: tail ∧ Lead.ofByte? first = some lead ∧
    tail.length = lead.continuations ∧ (∀ byte ∈ tail, isContinuation byte = true) ∧
    lead.least ≤ c.toNat ∧ tail.foldl extend lead.payload = c.toNat

/-! ## Bytes as numbers -/

theorem isContinuation_iff (byte : UInt8) :
    isContinuation byte = true ↔ 0x80 ≤ byte.toNat ∧ byte.toNat ≤ 0xBF := by
  simp [isContinuation, UInt8.le_iff_toNat_le]

theorem isContinuation_iff_le {byte : UInt8} :
    isContinuation byte = true ↔ 0x80 ≤ byte ∧ byte ≤ 0xBF := by
  simp [isContinuation]

theorem Lead.ofByte?_eq (byte : UInt8) :
    Lead.ofByte? byte =
      if byte.toNat ≤ 0x7F then some ⟨0, byte.toNat, 0⟩
      else if 0xC2 ≤ byte.toNat ∧ byte.toNat ≤ 0xDF then some ⟨1, byte.toNat % 0x20, 0x80⟩
      else if 0xE0 ≤ byte.toNat ∧ byte.toNat ≤ 0xEF then some ⟨2, byte.toNat % 0x10, 0x800⟩
      else if 0xF0 ≤ byte.toNat ∧ byte.toNat ≤ 0xF4 then some ⟨3, byte.toNat % 0x08, 0x10000⟩
      else none := by
  simp only [Lead.ofByte?, UInt8.le_iff_toNat_le]
  rfl

theorem Lead.ofByte?_cases {byte : UInt8} {lead : Lead} (h : Lead.ofByte? byte = some lead) :
    (byte.toNat ≤ 0x7F ∧ lead = ⟨0, byte.toNat, 0⟩) ∨
    ((0xC2 ≤ byte.toNat ∧ byte.toNat ≤ 0xDF) ∧ lead = ⟨1, byte.toNat % 0x20, 0x80⟩) ∨
    ((0xE0 ≤ byte.toNat ∧ byte.toNat ≤ 0xEF) ∧ lead = ⟨2, byte.toNat % 0x10, 0x800⟩) ∨
    ((0xF0 ≤ byte.toNat ∧ byte.toNat ≤ 0xF4) ∧ lead = ⟨3, byte.toNat % 0x08, 0x10000⟩) := by
  rw [Lead.ofByte?_eq] at h
  split at h
  · cases h; left; exact ⟨‹_›, rfl⟩
  split at h
  · cases h; right; left; exact ⟨‹_›, rfl⟩
  split at h
  · cases h; right; right; left; exact ⟨‹_›, rfl⟩
  split at h
  · cases h; right; right; right; exact ⟨‹_›, rfl⟩
  · cases h

theorem toNat_bounds (c : Char) : c.toNat < 0x110000 ∧ ¬ (0xD800 ≤ c.toNat ∧ c.toNat ≤ 0xDFFF) := by
  have valid : c.toNat < 0xD800 ∨ (0xDFFF < c.toNat ∧ c.toNat < 0x110000) := c.valid
  omega

/-! ## The bytes of a scalar value -/

theorem encode_eq (c : Char) :
    encode c =
      if c.toNat ≤ 0x7F then [UInt8.ofNat c.toNat]
      else if c.toNat ≤ 0x7FF then
        [UInt8.ofNat (c.toNat / 0x40 % 0x20 + 0xC0), UInt8.ofNat (c.toNat % 0x40 + 0x80)]
      else if c.toNat ≤ 0xFFFF then
        [UInt8.ofNat (c.toNat / 0x1000 % 0x10 + 0xE0), UInt8.ofNat (c.toNat / 0x40 % 0x40 + 0x80),
          UInt8.ofNat (c.toNat % 0x40 + 0x80)]
      else
        [UInt8.ofNat (c.toNat / 0x40000 % 0x08 + 0xF0),
          UInt8.ofNat (c.toNat / 0x1000 % 0x40 + 0x80), UInt8.ofNat (c.toNat / 0x40 % 0x40 + 0x80),
          UInt8.ofNat (c.toNat % 0x40 + 0x80)] := rfl

theorem encode_ne_nil (c : Char) : encode c ≠ [] := by
  rw [encode_eq]
  split
  · simp
  split
  · simp
  split <;> simp

theorem spells_encode (c : Char) : Spells (encode c) c := by
  obtain ⟨top, hole⟩ := toNat_bounds c
  rw [encode_eq]
  split
  · refine ⟨_, ⟨0, c.toNat, 0⟩, [], rfl, ?_, rfl, by simp, by simp, rfl⟩
    rw [Lead.ofByte?_eq, UInt8.toNat_ofNat', Nat.mod_eq_of_lt (by omega), if_pos ‹_›]
  split
  · refine ⟨_, ⟨1, c.toNat / 0x40, 0x80⟩, [_], rfl, ?_, rfl, ?_, ?_, ?_⟩
    · rw [Lead.ofByte?_eq, UInt8.toNat_ofNat', if_neg (by omega), if_pos (by omega)]
      congr 2
      omega
    · simp only [List.mem_singleton, forall_eq, isContinuation_iff, UInt8.toNat_ofNat']
      omega
    · show 0x80 ≤ c.toNat
      omega
    · simp only [List.foldl_cons, List.foldl_nil, extend, UInt8.toNat_ofNat']
      omega
  split
  · refine ⟨_, ⟨2, c.toNat / 0x1000, 0x800⟩, [_, _], rfl, ?_, rfl, ?_, ?_, ?_⟩
    · rw [Lead.ofByte?_eq, UInt8.toNat_ofNat', if_neg (by omega), if_neg (by omega),
        if_pos (by omega)]
      congr 2
      omega
    · simp only [List.mem_cons, List.not_mem_nil, or_false, forall_eq_or_imp, forall_eq,
        isContinuation_iff, UInt8.toNat_ofNat']
      omega
    · show 0x800 ≤ c.toNat
      omega
    · simp only [List.foldl_cons, List.foldl_nil, extend, UInt8.toNat_ofNat']
      omega
  · refine ⟨_, ⟨3, c.toNat / 0x40000, 0x10000⟩, [_, _, _], rfl, ?_, rfl, ?_, ?_, ?_⟩
    · rw [Lead.ofByte?_eq, UInt8.toNat_ofNat', if_neg (by omega), if_neg (by omega),
        if_neg (by omega), if_pos (by omega)]
      congr 2
      omega
    · simp only [List.mem_cons, List.not_mem_nil, or_false, forall_eq_or_imp, forall_eq,
        isContinuation_iff, UInt8.toNat_ofNat']
      omega
    · show 0x10000 ≤ c.toNat
      omega
    · simp only [List.foldl_cons, List.foldl_nil, extend, UInt8.toNat_ofNat']
      omega

theorem eq_encode_of_spells {bytes : List UInt8} {c : Char} (h : Spells bytes c) :
    bytes = encode c := by
  obtain ⟨first, lead, tail, rfl, announced, length, follow, least, value⟩ := h
  rw [encode_eq]
  obtain ⟨bound, rfl⟩ | ⟨bound, rfl⟩ | ⟨bound, rfl⟩ | ⟨bound, rfl⟩ := Lead.ofByte?_cases announced
  · obtain rfl := List.length_eq_zero_iff.mp length
    rw [List.foldl_nil] at value
    rw [← value, if_pos bound, UInt8.ofNat_toNat]
  · obtain ⟨b₁, rfl⟩ := List.length_eq_one_iff.mp length
    simp only [List.mem_singleton, forall_eq, isContinuation_iff] at follow
    simp only [List.foldl_cons, List.foldl_nil, extend] at value least
    rw [if_neg (by omega), if_pos (by omega)]
    simp only [List.cons.injEq, ← UInt8.toNat_inj, UInt8.toNat_ofNat', and_true]
    omega
  · obtain ⟨b₁, b₂, rfl⟩ := List.length_eq_two.mp length
    simp only [List.mem_cons, List.not_mem_nil, or_false, forall_eq_or_imp, forall_eq,
      isContinuation_iff] at follow
    simp only [List.foldl_cons, List.foldl_nil, extend] at value least
    rw [if_neg (by omega), if_neg (by omega), if_pos (by omega)]
    simp only [List.cons.injEq, ← UInt8.toNat_inj, UInt8.toNat_ofNat', and_true]
    omega
  · obtain ⟨b₁, b₂, b₃, rfl⟩ := List.length_eq_three.mp length
    simp only [List.mem_cons, List.not_mem_nil, or_false, forall_eq_or_imp, forall_eq,
      isContinuation_iff] at follow
    simp only [List.foldl_cons, List.foldl_nil, extend] at value least
    rw [if_neg (by omega), if_neg (by omega), if_neg (by omega)]
    simp only [List.cons.injEq, ← UInt8.toNat_inj, UInt8.toNat_ofNat', and_true]
    omega

/-- The bytes that spell a scalar value are those that the writer gives. -/
theorem spells_iff {bytes : List UInt8} {c : Char} : Spells bytes c ↔ bytes = encode c :=
  ⟨eq_encode_of_spells, fun h => h ▸ spells_encode c⟩

/-- Only the scalar values of ASCII are written with bytes of ASCII. -/
theorem le_of_mem_encode {c : Char} (high : 0x80 ≤ c.toNat) : ∀ byte ∈ encode c, 0x80 ≤ byte.toNat := by
  obtain ⟨first, lead, tail, shape, announced, length, follow, -, value⟩ := spells_encode c
  have lead_high : 0x80 ≤ first.toNat := by
    obtain ⟨bound, rfl⟩ | ⟨bound, -⟩ | ⟨bound, -⟩ | ⟨bound, -⟩ := Lead.ofByte?_cases announced
    · obtain rfl := List.length_eq_zero_iff.mp length
      have same : first.toNat = c.toNat := value
      omega
    · omega
    · omega
    · omega
  rw [shape]
  refine List.forall_mem_cons.mpr ⟨lead_high, fun byte inside => ?_⟩
  exact ((isContinuation_iff byte).mp (follow byte inside)).1

/-- The bytes of a text are those of its characters. -/
theorem toByteArray_ofList (text : List Char) :
    (String.ofList text).toByteArray.data.toList = text.flatMap encode := by
  rw [String.toByteArray_ofList, List.utf8Encode, List.data_toByteArray]
  rfl

/-! ## The decoder -/

variable {source after : MemorySource} {encoding : Encoding}

theorem continuations_eq_ok_iff (free : source.pending = none) {start n value result : Nat} :
    continuations encoding start n value source = .ok result after ↔
      ∃ tail, tail <+: source.rest ∧ tail.length = n ∧ (∀ byte ∈ tail, isContinuation byte = true) ∧
        tail.foldl extend value = result ∧ after = source.skip n := by
  induction n generalizing source after value with
  | zero =>
    rw [continuations, pure_eq_ok_iff]
    constructor
    · intro given
      obtain ⟨rfl, rfl⟩ := given
      exact ⟨[], List.nil_prefix, rfl, by simp, rfl, rfl⟩
    · intro given
      obtain ⟨tail, -, length, -, rfl, rfl⟩ := given
      obtain rfl := List.length_eq_zero_iff.mp length
      exact ⟨rfl, rfl⟩
  | succ n ih =>
    have free' : (source.skip 1).pending = none := free
    rw [continuations, bind_eq_ok_iff]
    constructor
    · intro given
      obtain ⟨byte, behind, first, run⟩ := given
      obtain ⟨front, rfl⟩ := (nextByte_eq_ok_iff free).mp first
      split at run
      · obtain ⟨tail, back, length, follow, value, rfl⟩ := (ih free').mp run
        refine ⟨byte :: tail, append_prefix_iff.mpr ⟨front, back⟩, by simp [length],
          by simpa using ⟨‹_›, follow⟩, value, ?_⟩
        rw [MemorySource.skip_skip, Nat.add_comm]
      · obtain ⟨_, _, -, refused⟩ := bind_eq_ok_iff.mp run
        exact absurd refused throw_ne_ok
    · intro given
      obtain ⟨tail, whole, length, follow, value, rfl⟩ := given
      obtain ⟨byte, tail, rfl⟩ := List.exists_cons_of_length_eq_add_one length
      rw [← List.singleton_append, append_prefix_iff] at whole
      obtain ⟨continues, follow⟩ := List.forall_mem_cons.mp follow
      refine ⟨byte, source.skip 1, (nextByte_eq_ok_iff free).mpr ⟨whole.1, rfl⟩, ?_⟩
      rw [if_pos continues, ih free']
      refine ⟨tail, whole.2, by simpa using length, follow, value, ?_⟩
      rw [MemorySource.skip_skip, Nat.add_comm]

/-- The decoder takes a scalar value exactly where the writer's bytes for it stand next. -/
theorem decode_eq_ok_iff (free : source.pending = none) {c : Char} :
    decode encoding source = .ok c after ↔
      encode c <+: source.rest ∧ after = source.skip (encode c).length := by
  have free' : (source.skip 1).pending = none := free
  rw [decode, here_bind_of_free free, bind_eq_ok_iff]
  constructor
  · intro given
    obtain ⟨first, _, read, run⟩ := given
    obtain ⟨front, rfl⟩ := (nextByte_eq_ok_iff free).mp read
    cases announced : Lead.ofByte? first with
    | none =>
      rw [announced] at run
      exact absurd run throw_ne_ok
    | some lead =>
      rw [announced] at run
      obtain ⟨value, _, others, run⟩ := bind_eq_ok_iff.mp run
      obtain ⟨tail, back, length, follow, fold, rfl⟩ := (continuations_eq_ok_iff free').mp others
      by_cases short : value < lead.least
      · rw [if_pos short] at run
        exact absurd run throw_ne_ok
      · rw [if_neg short] at run
        obtain ⟨rfl, rfl⟩ := scalarOr_eq_ok_iff.mp run
        have spelled : Spells (first :: tail) c :=
          ⟨first, lead, tail, rfl, announced, length, follow, by omega, fold⟩
        rw [← spells_iff.mp spelled]
        refine ⟨append_prefix_iff.mpr ⟨front, back⟩, ?_⟩
        rw [MemorySource.skip_skip, List.length_cons, length, Nat.add_comm]
  · intro given
    obtain ⟨whole, rfl⟩ := given
    obtain ⟨first, lead, tail, shape, announced, length, follow, least, fold⟩ := spells_encode c
    rw [shape] at whole ⊢
    rw [← List.singleton_append, append_prefix_iff] at whole
    refine ⟨first, source.skip 1, (nextByte_eq_ok_iff free).mpr ⟨whole.1, rfl⟩, ?_⟩
    rw [announced]
    have others : continuations encoding source.offset lead.continuations lead.payload
        (source.skip 1) = .ok c.toNat ((source.skip 1).skip lead.continuations) :=
      (continuations_eq_ok_iff free').mpr ⟨tail, whole.2, length, follow, fold, rfl⟩
    refine bind_eq_ok_iff.mpr ⟨c.toNat, _, others, ?_⟩
    rw [if_neg (by omega)]
    refine scalarOr_eq_ok_iff.mpr ⟨rfl, ?_⟩
    rw [MemorySource.skip_skip, List.length_cons, length, Nat.add_comm]

end UnicodeInput.Codec.Utf8
