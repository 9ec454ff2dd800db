import UnicodeInput.Proofs.Codec.Units

/-! What one call of the decoder gives, and how many bytes it takes, on any bytes in memory. For each
encoding the cases stand in a table, one row for each way the bytes can go on. Some row always applies,
and what it says is what the call does, so no two rows disagree. A byte that UTF-8 reads and gives back
counts as not taken: the source has it ahead and is at its offset. -/
namespace UnicodeInput.Codec

variable {source after : MemorySource} {item : Item} {n start : Nat} {bytes : List UInt8}

/-- The next `n` bytes of a source have been taken. A byte given back is ahead again. -/
structure Takes (n : Nat) (source after : MemorySource) : Prop where
  ahead : after.pending.toList ++ after.rest = source.rest.drop n
  position : after.position = source.position + n

theorem Leaves.takes (free : source.pending = none) (leaves : Leaves after (source.skip n)) :
    Takes n source after := by
  have free' : (source.skip n).pending = none := free
  have position : (source.skip n).position = source.position + n := by
    rw [MemorySource.position_of_free free, MemorySource.position_of_free free']
    rfl
  rcases leaves with rfl | rfl
  · exact ⟨by rw [free']; rfl, position⟩
  · refine ⟨?_, (MemorySource.position_fetched _).trans position⟩
    rw [← MemorySource.rest_skip, MemorySource.fetched, free']
    cases ahead : (source.skip n).rest with
    | nil =>
      rw [ahead, free']
      rfl
    | cons byte rest =>
      rw [MemorySource.rest_skip, ahead]
      rfl

theorem bind_eq_bind {ε σ α β : Type} {x y : EStateM ε σ α} {s t : σ} (same : x s = y t)
    (f : α → EStateM ε σ β) : (x >>= f) s = (y >>= f) t := by
  change EStateM.bind x f s = EStateM.bind y f t
  rw [EStateM.bind, EStateM.bind, same]

/-- One call finds an item and takes so many bytes for it. -/
def Finds (decode : EStateM DecodeError MemorySource Char) (source : MemorySource) (item : Item)
    (n : Nat) : Prop :=
  ∃ after, decode source = leaving after item ∧ Leaves after (source.skip n)

theorem scalarItem_of_isScalar {value : Nat} (valid : Codespace.isScalar value = true)
    (e : DecodeError) : scalarItem e value = .ok (Char.ofNat value) := by
  have valid := Codespace.isScalar_iff.mp valid
  rw [scalarItem, Codespace.scalar?, dif_pos valid, Char.ofNat, dif_pos valid]

theorem Finds.of_eq {decode : EStateM DecodeError MemorySource Char}
    (run : decode source = leaving (source.skip n) item) : Finds decode source item n :=
  ⟨_, run, .inl rfl⟩

/-! ## UTF-8 -/

namespace Utf8

variable {encoding : Encoding} {lead byte : UInt8} {tail rest : List UInt8}

/-- How many continuation bytes a lead byte announces. -/
inductive Announces : UInt8 → Nat → Prop
  | one {lead : UInt8} : 0xC2 ≤ lead → lead ≤ 0xDF → Announces lead 1
  | two {lead : UInt8} : 0xE0 ≤ lead → lead ≤ 0xEF → Announces lead 2
  | three {lead : UInt8} : 0xF0 ≤ lead → lead ≤ 0xF4 → Announces lead 3

/-- What is found at the front of `bytes`, which are at `start`, and how many of them are taken. -/
inductive Outcome (encoding : Encoding) (start : Nat) : (bytes : List UInt8) → Item → Nat → Prop
  | ended : Outcome encoding start [] (.error (.truncated encoding start)) 0
  | single {lead : UInt8} {rest : List UInt8} : lead ≤ 0x7F →
      Outcome encoding start (lead :: rest) (.ok (Char.ofNat lead.toNat)) 1
  /-- A byte that begins nothing. -/
  | stray {lead : UInt8} {rest : List UInt8} : (0x80 ≤ lead ∧ lead ≤ 0xC1) ∨ 0xF5 ≤ lead →
      Outcome encoding start (lead :: rest) (.error (.malformed encoding start)) 1
  /-- The end comes before the last byte announced. -/
  | short {lead : UInt8} {tail : List UInt8} {n : Nat} : Announces lead n → tail.length < n →
      (∀ byte ∈ tail, 0x80 ≤ byte ∧ byte ≤ 0xBF) →
      Outcome encoding start (lead :: tail)
        (.error (.truncated encoding (start + 1 + tail.length))) (1 + tail.length)
  /-- Another byte comes before the last byte announced, and is not taken. -/
  | broken {lead byte : UInt8} {tail rest : List UInt8} {n : Nat} : Announces lead n →
      tail.length < n → (∀ byte ∈ tail, 0x80 ≤ byte ∧ byte ≤ 0xBF) →
      ¬ (0x80 ≤ byte ∧ byte ≤ 0xBF) →
      Outcome encoding start (lead :: (tail ++ byte :: rest))
        (.error (.malformed encoding start)) (1 + tail.length)
  | spelled {lead : UInt8} {tail rest : List UInt8} {c : Char} : Announces lead tail.length →
      (∀ byte ∈ tail, 0x80 ≤ byte ∧ byte ≤ 0xBF) → lead :: tail = encode c →
      Outcome encoding start (lead :: (tail ++ rest)) (.ok c) (1 + tail.length)
  /-- A complete sequence that no scalar value has. -/
  | misspelled {lead : UInt8} {tail rest : List UInt8} : Announces lead tail.length →
      (∀ byte ∈ tail, 0x80 ≤ byte ∧ byte ≤ 0xBF) → (∀ c, lead :: tail ≠ encode c) →
      Outcome encoding start (lead :: (tail ++ rest)) (.error (.malformed encoding start))
        (1 + tail.length)

/-- A byte is a character, begins nothing or announces others. -/
theorem lead_cases (byte : UInt8) :
    byte ≤ 0x7F ∨ ((0x80 ≤ byte ∧ byte ≤ 0xC1) ∨ 0xF5 ≤ byte) ∨ ∃ n, Announces byte n := by
  by_cases one : 0xC2 ≤ byte ∧ byte ≤ 0xDF
  · exact .inr (.inr ⟨1, .one one.1 one.2⟩)
  by_cases two : 0xE0 ≤ byte ∧ byte ≤ 0xEF
  · exact .inr (.inr ⟨2, .two two.1 two.2⟩)
  by_cases three : 0xF0 ≤ byte ∧ byte ≤ 0xF4
  · exact .inr (.inr ⟨3, .three three.1 three.2⟩)
  rw [← or_assoc]
  left
  simp only [UInt8.le_iff_toNat_le, UInt8.reduceToNat] at one two three ⊢
  omega

theorem exists_of_announces (announced : Announces lead n) :
    ∃ found, Lead.ofByte? lead = some found ∧ found.continuations = n := by
  rw [Lead.ofByte?_eq]
  cases announced with
  | one least greatest =>
    simp only [UInt8.le_iff_toNat_le, UInt8.reduceToNat] at least greatest
    exact ⟨_, by rw [if_neg (by omega), if_pos ⟨least, greatest⟩], rfl⟩
  | two least greatest =>
    simp only [UInt8.le_iff_toNat_le, UInt8.reduceToNat] at least greatest
    exact ⟨_, by rw [if_neg (by omega), if_neg (by omega), if_pos ⟨least, greatest⟩], rfl⟩
  | three least greatest =>
    simp only [UInt8.le_iff_toNat_le, UInt8.reduceToNat] at least greatest
    exact ⟨_, by rw [if_neg (by omega), if_neg (by omega), if_neg (by omega),
      if_pos ⟨least, greatest⟩], rfl⟩

theorem ofByte?_of_single (single : lead ≤ 0x7F) :
    Lead.ofByte? lead = some ⟨0, lead.toNat, 0⟩ :=
  if_pos single

theorem isScalar_of_single (single : lead ≤ 0x7F) : Codespace.isScalar lead.toNat = true := by
  simp only [UInt8.le_iff_toNat_le, UInt8.reduceToNat] at single
  rw [Codespace.isScalar_iff]
  left
  omega

theorem ofByte?_of_stray (stray : (0x80 ≤ lead ∧ lead ≤ 0xC1) ∨ 0xF5 ≤ lead) :
    Lead.ofByte? lead = none := by
  simp only [UInt8.le_iff_toNat_le, UInt8.reduceToNat] at stray
  rw [Lead.ofByte?_eq, if_neg (by omega), if_neg (by omega), if_neg (by omega), if_neg (by omega)]

/-- As many continuation bytes as a lead byte announces, or fewer and then the end or another byte. -/
theorem exists_tail (n : Nat) (bytes : List UInt8) :
    ∃ tail rest, bytes = tail ++ rest ∧ (∀ byte ∈ tail, isContinuation byte = true) ∧
      (tail.length = n ∨ tail.length < n ∧ ∀ byte behind, rest = byte :: behind →
        ¬ isContinuation byte = true) := by
  induction n generalizing bytes with
  | zero => exact ⟨[], bytes, rfl, List.forall_mem_nil _, .inl rfl⟩
  | succ n ih =>
    cases bytes with
    | nil => exact ⟨[], [], rfl, List.forall_mem_nil _, .inr ⟨Nat.succ_pos n, nofun⟩⟩
    | cons byte bytes =>
      by_cases continues : isContinuation byte = true
      · obtain ⟨tail, rest, rfl, follow, stops⟩ := ih bytes
        refine ⟨byte :: tail, rest, rfl, List.forall_mem_cons.mpr ⟨continues, follow⟩, ?_⟩
        simpa using stops
      · refine ⟨[], byte :: bytes, rfl, List.forall_mem_nil _, .inr ⟨Nat.succ_pos n, ?_⟩⟩
        intro other behind same
        rwa [← (List.cons.inj same).1]

theorem exists_outcome (encoding : Encoding) (start : Nat) (bytes : List UInt8) :
    ∃ item n, Outcome encoding start bytes item n := by
  cases bytes with
  | nil => exact ⟨_, _, .ended⟩
  | cons lead rest =>
    obtain single | stray | ⟨n, announced⟩ := lead_cases lead
    · exact ⟨_, _, .single single⟩
    · exact ⟨_, _, .stray stray⟩
    · obtain ⟨tail, rest, rfl, follow, complete | ⟨fewer, stops⟩⟩ :=
        exists_tail n rest
      all_goals simp only [isContinuation_iff_le] at follow
      · rw [← complete] at announced
        by_cases spelled : ∃ c, lead :: tail = encode c
        · obtain ⟨c, spelled⟩ := spelled
          exact ⟨_, _, .spelled announced follow spelled⟩
        · exact ⟨_, _, .misspelled announced follow (not_exists.mp spelled)⟩
      · simp only [isContinuation_iff_le] at stops
        cases rest with
        | nil =>
          rw [List.append_nil]
          exact ⟨_, _, .short announced fewer follow⟩
        | cons byte rest => exact ⟨_, _, .broken announced fewer follow (stops byte rest rfl)⟩

/-! ### The decoder -/

/-- Continuation bytes that stand next are read, and what is still missing after them. -/
theorem continuations_append (free : source.pending = none) {start value : Nat}
    (front : tail <+: source.rest) (follow : ∀ byte ∈ tail, isContinuation byte = true) (n : Nat) :
    continuations encoding start (tail.length + n) value source =
      continuations encoding start n (tail.foldl extend value) (source.skip tail.length) := by
  induction tail generalizing source value with
  | nil => rw [List.length_nil, Nat.zero_add]; rfl
  | cons byte tail ih =>
    have free' : (source.skip 1).pending = none := free
    obtain ⟨first, others⟩ := append_prefix_iff.mp (show [byte] ++ tail <+: source.rest from front)
    obtain ⟨continues, follow⟩ := List.forall_mem_cons.mp follow
    rw [List.length_cons, Nat.add_right_comm, continuations,
      bind_of_ok ((nextByte_eq_ok_iff free).mpr ⟨first, rfl⟩), if_pos continues,
      ih free' others follow, MemorySource.skip_skip, Nat.add_comm 1, List.foldl_cons]

theorem continuations_of_nil (free : source.pending = none) (ended : source.rest = [])
    {start value : Nat} : continuations encoding start (n + 1) value source =
      .error (.truncated encoding source.offset) source := by
  have finish : source.finish = source.offset := by rw [MemorySource.finish, ended]; rfl
  rw [continuations, bind_of_error ((nextByte_eq_error_iff free).mpr ⟨ended, rfl, rfl⟩), finish]

/-- A byte that continues nothing is given back. -/
theorem continuations_of_cons (free : source.pending = none) (ahead : source.rest = byte :: rest)
    (stops : ¬ isContinuation byte = true) {start value : Nat} :
    continuations encoding start (n + 1) value source =
      .error (.malformed encoding start) source.fetched := by
  rw [continuations, bind_of_ok ((nextByte_eq_ok_iff free).mpr ⟨⟨rest, ahead.symm⟩, rfl⟩),
    if_neg stops, bind_of_ok (putBack_of_cons free ahead)]
  rfl

theorem decode_of_nil (free : source.pending = none) (ended : source.rest = []) :
    decode encoding source = .error (.truncated encoding source.offset) source := by
  have finish : source.finish = source.offset := by rw [MemorySource.finish, ended]; rfl
  rw [decode, here_bind_of_free free,
    bind_of_error ((nextByte_eq_error_iff free).mpr ⟨ended, rfl, rfl⟩), finish]

/-- Behind a lead byte and some of the bytes it announces. -/
theorem decode_of_lead (free : source.pending = none) (ahead : source.rest = lead :: (tail ++ rest))
    {found : Lead} (announced : Lead.ofByte? lead = some found)
    (follow : ∀ byte ∈ tail, isContinuation byte = true)
    (missing : found.continuations = tail.length + n) :
    decode encoding source = (do
      let value ← continuations encoding source.offset n (tail.foldl extend found.payload)
      if value < found.least then throw (.malformed encoding source.offset)
        else scalarOr (.malformed encoding source.offset) value :
          EStateM DecodeError MemorySource Char) (source.skip (1 + tail.length)) := by
  have free' : (source.skip 1).pending = none := free
  have front : tail <+: (source.skip 1).rest := ⟨rest, by rw [MemorySource.rest_skip, ahead]; rfl⟩
  rw [decode, here_bind_of_free free,
    bind_of_ok ((nextByte_eq_ok_iff free).mpr ⟨⟨_, ahead.symm⟩, rfl⟩), announced]
  refine bind_eq_bind ?_ _
  rw [missing, continuations_append free' front follow, MemorySource.skip_skip]

/-- A sequence with all its bytes is judged by their value. -/
theorem decode_of_complete (free : source.pending = none)
    (ahead : source.rest = lead :: (tail ++ rest)) {found : Lead}
    (announced : Lead.ofByte? lead = some found)
    (follow : ∀ byte ∈ tail, isContinuation byte = true)
    (complete : found.continuations = tail.length) :
    decode encoding source =
      (if tail.foldl extend found.payload < found.least then throw (.malformed encoding source.offset)
        else scalarOr (.malformed encoding source.offset) (tail.foldl extend found.payload) :
          EStateM DecodeError MemorySource Char) (source.skip (1 + tail.length)) := by
  rw [decode_of_lead free ahead announced follow (n := 0) complete, continuations]
  exact bind_of_ok rfl

theorem finds_of_outcome (free : source.pending = none)
    (outcome : Outcome encoding source.offset source.rest item n) :
    Finds (decode encoding) source item n := by
  generalize ahead : source.rest = bytes at outcome
  cases outcome with
  | ended => exact .of_eq (decode_of_nil free ahead)
  | @single lead rest single =>
    have judged : decode encoding source = _ := decode_of_complete free
      (show source.rest = lead :: ([] ++ rest) from ahead) (ofByte?_of_single single)
      (List.forall_mem_nil _) rfl
    rw [if_neg (Nat.not_lt_zero _), scalarOr_eq, List.foldl_nil,
      scalarItem_of_isScalar (isScalar_of_single single)] at judged
    exact .of_eq judged
  | stray stray =>
    refine .of_eq ?_
    rw [decode, here_bind_of_free free,
      bind_of_ok ((nextByte_eq_ok_iff free).mpr ⟨⟨_, ahead.symm⟩, rfl⟩), ofByte?_of_stray stray]
    rfl
  | @short lead tail n announced fewer follow =>
    obtain ⟨found, known, rfl⟩ := exists_of_announces announced
    obtain ⟨missing, count⟩ := Nat.exists_eq_add_of_lt fewer
    simp only [← isContinuation_iff_le] at follow
    have free' : (source.skip (1 + tail.length)).pending = none := free
    have all : source.rest = lead :: (tail ++ []) := by rw [ahead, List.append_nil]
    have ended : (source.skip (1 + tail.length)).rest = [] := by
      rw [MemorySource.rest_skip, ahead, Nat.add_comm, List.drop_succ_cons, List.drop_length]
    refine .of_eq ?_
    rw [decode_of_lead (n := missing + 1) free all known follow count,
      bind_of_error (continuations_of_nil free' ended), Nat.add_assoc]
    rfl
  | @broken lead byte tail rest n announced fewer follow stops =>
    obtain ⟨found, known, rfl⟩ := exists_of_announces announced
    obtain ⟨missing, count⟩ := Nat.exists_eq_add_of_lt fewer
    simp only [← isContinuation_iff_le] at follow stops
    have free' : (source.skip (1 + tail.length)).pending = none := free
    have next : (source.skip (1 + tail.length)).rest = byte :: rest := by
      rw [MemorySource.rest_skip, ahead, Nat.add_comm, List.drop_succ_cons, List.drop_left]
    refine ⟨_, ?_, .inr rfl⟩
    rw [decode_of_lead (n := missing + 1) free ahead known follow count,
      bind_of_error (continuations_of_cons free' next stops)]
    rfl
  | @spelled lead tail rest c announced follow spelled =>
    obtain ⟨whole, took⟩ : encode c <+: source.rest ∧ (encode c).length = 1 + tail.length := by
      rw [← spelled, ahead]
      exact ⟨List.prefix_append (lead :: tail) rest, Nat.add_comm ..⟩
    rw [← took]
    exact .of_eq ((decode_eq_ok_iff free).mpr ⟨whole, rfl⟩)
  | @misspelled lead tail rest announced follow other =>
    obtain ⟨found, known, complete⟩ := exists_of_announces announced
    simp only [← isContinuation_iff_le] at follow
    refine .of_eq ?_
    rw [decode_of_complete free ahead known follow complete]
    split
    next => rfl
    next large =>
      rw [scalarOr_eq, scalarItem]
      cases value : Codespace.scalar? (tail.foldl extend found.payload) with
      | none => rfl
      | some c =>
        rw [Codespace.scalar?_eq_some_iff] at value
        exact absurd (eq_encode_of_spells ⟨lead, found, tail, rfl, known, complete.symm, follow,
          by omega, value.symm⟩) (other c)

/-- What is taken behind the first byte continues a sequence, whatever is found. -/
theorem Outcome.exists_tail {first : UInt8} (outcome : Outcome encoding start (first :: rest) item n) :
    ∃ tail, tail <+: rest ∧ (∀ byte ∈ tail, isContinuation byte = true) ∧ n = 1 + tail.length := by
  simp only [isContinuation_iff_le]
  cases outcome with
  | single => exact ⟨[], List.nil_prefix, List.forall_mem_nil _, rfl⟩
  | stray => exact ⟨[], List.nil_prefix, List.forall_mem_nil _, rfl⟩
  | short announced fewer follow => exact ⟨rest, List.prefix_rfl, follow, rfl⟩
  | @broken _ _ tail _ _ announced fewer follow => exact ⟨tail, List.prefix_append .., follow, rfl⟩
  | @spelled _ tail _ _ announced follow => exact ⟨tail, List.prefix_append .., follow, rfl⟩
  | @misspelled _ tail _ announced follow => exact ⟨tail, List.prefix_append .., follow, rfl⟩

end Utf8

/-! ## Units of two and of four bytes -/

theorem prefix_of_join {order : ByteOrder} {unit : Nat} {front rest : List UInt8}
    (value : order.join front = unit) : order.split front.length unit <+: front ++ rest := by
  rw [← value, order.split_join]
  exact List.prefix_append front rest

theorem join_lt_of_eq {order : ByteOrder} {unit : Nat} {front : List UInt8}
    (value : order.join front = unit) : unit < 256 ^ front.length :=
  value ▸ order.join_lt front

theorem isScalar_of_not_isSurrogate {value : Nat} (plain : ¬ Codespace.isSurrogate value = true)
    (bound : value ≤ 0x10FFFF) : Codespace.isScalar value = true := by
  rw [Bool.not_eq_true] at plain
  rw [Codespace.isScalar, plain, Bool.not_false, Bool.and_true]
  exact decide_eq_true bound

namespace Utf16

variable {order : ByteOrder} {unit low : Nat}

/-- What is found at the front of `bytes`, which are at `start`, and how many of them are taken. -/
inductive Outcome (order : ByteOrder) (start : Nat) : (bytes : List UInt8) → Item → Nat → Prop
  | short {bytes : List UInt8} : bytes.length < 2 →
      Outcome order start bytes
        (.error (.truncated (.utf16 order) (start + bytes.length))) bytes.length
  | single {b₀ b₁ : UInt8} {rest : List UInt8} {unit : Nat} : order.join [b₀, b₁] = unit →
      ¬ Codespace.isSurrogate unit = true →
      Outcome order start (b₀ :: b₁ :: rest) (.ok (Char.ofNat unit)) 2
  | low {b₀ b₁ : UInt8} {rest : List UInt8} {unit : Nat} : order.join [b₀, b₁] = unit →
      Codespace.isLowSurrogate unit = true →
      Outcome order start (b₀ :: b₁ :: rest)
        (.error (.loneSurrogate (.utf16 order) start unit)) 2
  /-- A high surrogate that ends the input. -/
  | dangling {b₀ b₁ : UInt8} {unit : Nat} : order.join [b₀, b₁] = unit →
      Codespace.isHighSurrogate unit = true →
      Outcome order start [b₀, b₁] (.error (.loneSurrogate (.utf16 order) start unit)) 2
  /-- A high surrogate with half a unit behind it. -/
  | cut {b₀ b₁ b₂ : UInt8} {unit : Nat} : order.join [b₀, b₁] = unit →
      Codespace.isHighSurrogate unit = true →
      Outcome order start [b₀, b₁, b₂] (.error (.truncated (.utf16 order) (start + 3))) 3
  | pair {b₀ b₁ b₂ b₃ : UInt8} {rest : List UInt8} {unit low : Nat} : order.join [b₀, b₁] = unit →
      order.join [b₂, b₃] = low → Codespace.isHighSurrogate unit = true →
      Codespace.isLowSurrogate low = true →
      Outcome order start (b₀ :: b₁ :: b₂ :: b₃ :: rest) (.ok (Char.ofNat (pairValue unit low))) 4
  /-- A high surrogate before another unit than a low one, which is taken too. -/
  | unpaired {b₀ b₁ b₂ b₃ : UInt8} {rest : List UInt8} {unit low : Nat} :
      order.join [b₀, b₁] = unit → order.join [b₂, b₃] = low →
      Codespace.isHighSurrogate unit = true → ¬ Codespace.isLowSurrogate low = true →
      Outcome order start (b₀ :: b₁ :: b₂ :: b₃ :: rest)
        (.error (.loneSurrogate (.utf16 order) start unit)) 4

theorem isSurrogate_iff (v : Nat) : Codespace.isSurrogate v = true ↔
    Codespace.isHighSurrogate v = true ∨ Codespace.isLowSurrogate v = true := by
  rw [isHighSurrogate_iff, isLowSurrogate_iff]
  simp only [Codespace.isSurrogate, Bool.and_eq_true, decide_eq_true_eq]
  omega

theorem isScalar_pairValue (high : Codespace.isHighSurrogate unit = true)
    (second : Codespace.isLowSurrogate low = true) : Codespace.isScalar (pairValue unit low) = true := by
  rw [isHighSurrogate_iff] at high
  rw [isLowSurrogate_iff] at second
  have bounds : 0x10000 ≤ pairValue unit low ∧ pairValue unit low < 0x110000 := by
    unfold pairValue
    omega
  rw [Codespace.isScalar_iff]
  exact .inr ⟨by omega, bounds.2⟩

theorem exists_outcome (order : ByteOrder) (start : Nat) (bytes : List UInt8) :
    ∃ item n, Outcome order start bytes item n := by
  rcases bytes with _ | ⟨b₀, _ | ⟨b₁, rest⟩⟩
  · exact ⟨_, _, .short (by simp)⟩
  · exact ⟨_, _, .short (by simp)⟩
  by_cases high : Codespace.isHighSurrogate (order.join [b₀, b₁]) = true
  · rcases rest with _ | ⟨b₂, _ | ⟨b₃, rest⟩⟩
    · exact ⟨_, _, .dangling rfl high⟩
    · exact ⟨_, _, .cut rfl high⟩
    · by_cases second : Codespace.isLowSurrogate (order.join [b₂, b₃]) = true
      · exact ⟨_, _, .pair rfl rfl high second⟩
      · exact ⟨_, _, .unpaired rfl rfl high second⟩
  · by_cases low : Codespace.isLowSurrogate (order.join [b₀, b₁]) = true
    · exact ⟨_, _, .low rfl low⟩
    · refine ⟨_, _, .single rfl ?_⟩
      rw [isSurrogate_iff, not_or]
      exact ⟨high, low⟩

theorem lt_of_join {b₀ b₁ : UInt8} (value : order.join [b₀, b₁] = unit) : unit < 0x10000 := by
  calc unit < 256 ^ 2 := join_lt_of_eq value
    _ = 0x10000 := rfl

theorem nextUnit_of_short (free : source.pending = none) (short : source.rest.length < 2) :
    nextUnit order source = .error (.truncated (.utf16 order) source.finish)
      (source.skip source.rest.length) :=
  map_eq_error_iff.mpr ((nextBytes_eq_error_iff free).mpr ⟨short, rfl, rfl⟩)

theorem finds_of_outcome (free : source.pending = none)
    (outcome : Outcome order source.offset source.rest item n) :
    Finds (decode order) source item n := by
  generalize ahead : source.rest = bytes at outcome
  cases outcome with
  | short short =>
    rw [← ahead] at short ⊢
    refine .of_eq ?_
    rw [decode, here_bind_of_free free, bind_of_error (nextUnit_of_short free short)]
    rfl
  | @single b₀ b₁ rest unit value plain =>
    have front : order.split 2 unit <+: source.rest := ahead ▸ prefix_of_join value
    have bound : unit < 0x10000 := lt_of_join value
    have valid := isScalar_of_not_isSurrogate plain (by omega)
    rw [isSurrogate_iff, not_or] at plain
    refine .of_eq ?_
    rw [decode_eq_itemAt free bound plain.1 front, itemAt, if_neg plain.2,
      scalarItem_of_isScalar valid]
  | @low b₀ b₁ rest unit value low =>
    have front : order.split 2 unit <+: source.rest := ahead ▸ prefix_of_join value
    refine .of_eq ?_
    rw [decode_eq_itemAt free (lt_of_join value) (fun high => not_high_and_low ⟨high, low⟩) front,
      itemAt, if_pos low, lone]
  | @dangling b₀ b₁ unit value high =>
    have content : source.rest = order.split 2 unit := by
      rw [ahead, ← value]
      exact (order.split_join [b₀, b₁]).symm
    exact .of_eq (decode_of_dangling free high content)
  | @cut b₀ b₁ b₂ unit value high =>
    have front : order.split 2 unit <+: source.rest := ahead ▸ prefix_of_join value
    have free' : (source.skip 2).pending = none := free
    have half : (source.skip 2).rest = [b₂] := by rw [MemorySource.rest_skip, ahead]; rfl
    have follows : (source.skip 2).hasNext = true :=
      (MemorySource.hasNext_eq_true_iff free').mpr (half ▸ List.cons_ne_nil b₂ [])
    refine .of_eq ?_
    rw [decode, here_bind_of_free free,
      bind_of_ok ((nextUnit_eq_ok_iff free).mpr ⟨front, lt_of_isHighSurrogate high, rfl⟩), if_pos high,
      bind_of_ok (more_eq_ok_iff.mpr ⟨follows, rfl⟩), if_pos rfl,
      bind_of_error (nextUnit_of_short free' (half ▸ Nat.one_lt_two)), half, List.length_singleton,
      MemorySource.finish, half, MemorySource.skip_skip]
    rfl
  | @pair b₀ b₁ b₂ b₃ rest unit low value value' high second =>
    have front : order.split 2 unit <+: source.rest := ahead ▸ prefix_of_join value
    have back : order.split 2 low <+: (source.skip 2).rest := by
      rw [MemorySource.rest_skip, ahead]
      exact prefix_of_join value'
    refine .of_eq ?_
    rw [decode_eq_pairAt free high (lt_of_isLowSurrogate second) front back, pairAt, if_pos second,
      scalarItem_of_isScalar (isScalar_pairValue high second)]
  | @unpaired b₀ b₁ b₂ b₃ rest unit low value value' high stops =>
    have front : order.split 2 unit <+: source.rest := ahead ▸ prefix_of_join value
    have back : order.split 2 low <+: (source.skip 2).rest := by
      rw [MemorySource.rest_skip, ahead]
      exact prefix_of_join value'
    refine .of_eq ?_
    rw [decode_eq_pairAt free high (lt_of_join value') front back, pairAt, if_neg stops, lone]

end Utf16

namespace Utf32

variable {order : ByteOrder}

/-- What is found at the front of `bytes`, which are at `start`, and how many of them are taken. -/
inductive Outcome (order : ByteOrder) (start : Nat) : (bytes : List UInt8) → Item → Nat → Prop
  | short {bytes : List UInt8} : bytes.length < 4 →
      Outcome order start bytes
        (.error (.truncated (.utf32 order) (start + bytes.length))) bytes.length
  | scalar {b₀ b₁ b₂ b₃ : UInt8} {rest : List UInt8} {unit : Nat} :
      order.join [b₀, b₁, b₂, b₃] = unit → ¬ Codespace.isSurrogate unit = true → unit ≤ 0x10FFFF →
      Outcome order start (b₀ :: b₁ :: b₂ :: b₃ :: rest) (.ok (Char.ofNat unit)) 4
  | surrogate {b₀ b₁ b₂ b₃ : UInt8} {rest : List UInt8} {unit : Nat} :
      order.join [b₀, b₁, b₂, b₃] = unit → Codespace.isSurrogate unit = true →
      Outcome order start (b₀ :: b₁ :: b₂ :: b₃ :: rest)
        (.error (.loneSurrogate (.utf32 order) start unit)) 4
  | beyond {b₀ b₁ b₂ b₃ : UInt8} {rest : List UInt8} {unit : Nat} :
      order.join [b₀, b₁, b₂, b₃] = unit → 0x10FFFF < unit →
      Outcome order start (b₀ :: b₁ :: b₂ :: b₃ :: rest) (.error (.malformed (.utf32 order) start)) 4

theorem exists_outcome (order : ByteOrder) (start : Nat) (bytes : List UInt8) :
    ∃ item n, Outcome order start bytes item n := by
  rcases bytes with _ | ⟨b₀, _ | ⟨b₁, _ | ⟨b₂, _ | ⟨b₃, rest⟩⟩⟩⟩
  · exact ⟨_, _, .short (by simp)⟩
  · exact ⟨_, _, .short (by simp)⟩
  · exact ⟨_, _, .short (by simp)⟩
  · exact ⟨_, _, .short (by simp)⟩
  by_cases surrogate : Codespace.isSurrogate (order.join [b₀, b₁, b₂, b₃]) = true
  · exact ⟨_, _, .surrogate rfl surrogate⟩
  · by_cases bound : order.join [b₀, b₁, b₂, b₃] ≤ 0x10FFFF
    · exact ⟨_, _, .scalar rfl surrogate bound⟩
    · exact ⟨_, _, .beyond rfl (Nat.lt_of_not_le bound)⟩

theorem scalarItem_of_lt {unit : Nat} (beyond : 0x10FFFF < unit) (e : DecodeError) :
    scalarItem e unit = .error e := by
  rw [scalarItem]
  cases value : Codespace.scalar? unit with
  | none => rfl
  | some c =>
    obtain ⟨top, -⟩ := Utf8.toNat_bounds c
    rw [Codespace.scalar?_eq_some_iff] at value
    omega

theorem finds_of_outcome (free : source.pending = none)
    (outcome : Outcome order source.offset source.rest item n) :
    Finds (decode order) source item n := by
  generalize ahead : source.rest = bytes at outcome
  cases outcome with
  | short short =>
    rw [← ahead] at short ⊢
    refine .of_eq ?_
    rw [decode, here_bind_of_free free, bind_of_error (map_eq_error_iff.mpr
      ((nextBytes_eq_error_iff free).mpr ⟨short, rfl, rfl⟩))]
    rfl
  | scalar value plain bound =>
    refine .of_eq ?_
    rw [decode_eq_itemAt free (join_lt_of_eq value) (ahead ▸ prefix_of_join value), itemAt,
      if_neg plain, scalarItem_of_isScalar (isScalar_of_not_isSurrogate plain bound)]
  | surrogate value surrogate =>
    refine .of_eq ?_
    rw [decode_eq_itemAt free (join_lt_of_eq value) (ahead ▸ prefix_of_join value), itemAt,
      if_pos surrogate]
  | @beyond b₀ b₁ b₂ b₃ rest unit value beyond =>
    have plain : ¬ Codespace.isSurrogate unit = true := by
      simp only [Codespace.isSurrogate, Bool.and_eq_true, decide_eq_true_eq]
      omega
    refine .of_eq ?_
    rw [decode_eq_itemAt free (join_lt_of_eq value) (ahead ▸ prefix_of_join value), itemAt,
      if_neg plain, scalarItem_of_lt beyond]

end Utf32

/-! ## Any encoding -/

/-- What is found at the front of `bytes`, which are at `start`, and how many of them are taken. -/
def Outcome (encoding : Encoding) (start : Nat) (bytes : List UInt8) (item : Item) (n : Nat) : Prop :=
  match encoding with
  | .utf8 | .utf8Bom => Utf8.Outcome encoding start bytes item n
  | .utf16 order => Utf16.Outcome order start bytes item n
  | .utf32 order => Utf32.Outcome order start bytes item n

variable {encoding : Encoding}

theorem exists_outcome (encoding : Encoding) (start : Nat) (bytes : List UInt8) :
    ∃ item n, Outcome encoding start bytes item n := by
  cases encoding with
  | utf8 => exact Utf8.exists_outcome .utf8 start bytes
  | utf8Bom => exact Utf8.exists_outcome .utf8Bom start bytes
  | utf16 order => exact Utf16.exists_outcome order start bytes
  | utf32 order => exact Utf32.exists_outcome order start bytes

theorem finds_of_outcome (free : source.pending = none)
    (outcome : Outcome encoding source.offset source.rest item n) :
    Finds (decodeScalar encoding) source item n := by
  cases encoding with
  | utf8 | utf8Bom => exact Utf8.finds_of_outcome free outcome
  | utf16 order => exact Utf16.finds_of_outcome free outcome
  | utf32 order => exact Utf32.finds_of_outcome free outcome

/-- Bytes are taken from those there are, and at least one of them. -/
theorem taken_of_outcome (outcome : Outcome encoding start bytes item n) :
    n ≤ bytes.length ∧ (n = 0 ↔ bytes = []) := by
  cases encoding with
  | utf8 | utf8Bom => cases outcome <;> simp <;> omega
  | utf16 order => cases outcome <;> simp
  | utf32 order => cases outcome <;> simp

theorem Finds.unique {decode : EStateM DecodeError MemorySource Char} (free : source.pending = none)
    {other : Item} {m : Nat} (found : Finds decode source item n) (again : Finds decode source other m) :
    other = item ∧ m = n := by
  obtain ⟨after, run, leaves⟩ := found
  obtain ⟨after', run', leaves'⟩ := again
  obtain ⟨rfl, rfl⟩ := leaving_inj.mp (run'.symm.trans run)
  have position := (leaves'.takes free).position.symm.trans (leaves.takes free).position
  exact ⟨rfl, Nat.add_left_cancel position⟩

/-- For all bytes exactly one row of the table applies, and one call gives its item and takes its number of
bytes, one at least if there are any. -/
theorem decodeScalar_outcome (encoding : Encoding) (bytes : List UInt8) (start : Nat) :
    ∃ item n, (∀ other m, Outcome encoding start bytes other m ↔ other = item ∧ m = n) ∧
      (∃ after, decodeScalar encoding { rest := bytes, offset := start } = leaving after item ∧
        Takes n { rest := bytes, offset := start } after) ∧
      n ≤ bytes.length ∧ (n = 0 ↔ bytes = []) := by
  have free : ({ rest := bytes, offset := start } : MemorySource).pending = none := rfl
  obtain ⟨item, n, outcome⟩ := exists_outcome encoding start bytes
  obtain ⟨after, run, leaves⟩ := finds_of_outcome free outcome
  refine ⟨item, n, ?_, ⟨after, run, leaves.takes free⟩, taken_of_outcome outcome⟩
  intro other m
  constructor
  · intro again
    exact (finds_of_outcome free outcome).unique free (finds_of_outcome free again)
  · rintro ⟨rfl, rfl⟩
    exact outcome

-- Two bytes are taken of a sequence of three, and the `A` in place of the third is ahead again.
example : decodeScalar .utf8 ({ rest := [0xE2, 0x82, 0x41], offset := 7 } : MemorySource) =
    .error (.malformed .utf8 7) { rest := [], offset := 10, pending := some 0x41 } := by rfl

end UnicodeInput.Codec
