import Mathlib.Algebra.Group.Nat.Defs
import Mathlib.Data.Nat.Find
import UnicodeInput.Codec.Lossy
import UnicodeInput.Proofs.Codec.Utf8

/-! Decoding that replaces faults. Where no scalar value stands next, the longest prefix that begins one
is replaced as a whole, and a single byte where none does. This rule says what becomes of any bytes, so it
has one solution only, and the decoder that follows a sequence byte by byte is that. -/
namespace UnicodeInput.Codec.Lossy

open Utf8 (Lead extend isContinuation isContinuation_iff isContinuation_iff_le)

variable {byte : UInt8} {bytes tail rest : List UInt8} {seq : Open} {lead : Lead} {c : Char}
  {m n : Nat}

/-! ## The rule -/

/-- Bytes that can be completed to a scalar value, or do so already. -/
def Begins (bytes : List UInt8) : Prop := ∃ c, bytes <+: Utf8.encode c

/-- The length of the longest prefix that begins a scalar value, and 1 where not even one byte does. -/
structure MaximalSubpart (bytes : List UInt8) (m : Nat) : Prop where
  positive : 1 ≤ m
  within : m ≤ bytes.length
  begins : m = 1 ∨ Begins (bytes.take m)
  longest : ∀ n, n ≤ bytes.length → Begins (bytes.take n) → n ≤ m

/-- Scalar values are decoded, and each maximal subpart of anything else becomes one U+FFFD. -/
structure SubstitutesMaximalSubparts (lossy : List UInt8 → List Char) : Prop where
  nil : lossy [] = []
  scalar : ∀ c rest, lossy (Utf8.encode c ++ rest) = c :: lossy rest
  fault : ∀ bytes m, (∀ c, ¬ Utf8.encode c <+: bytes) → MaximalSubpart bytes m →
    lossy bytes = Codespace.replacement :: lossy (bytes.drop m)

theorem exists_maximalSubpart (nonempty : bytes ≠ []) : ∃ m, MaximalSubpart bytes m := by
  classical
  have long : 1 ≤ bytes.length := List.length_pos_iff.mpr nonempty
  have empty : Begins (bytes.take 0) := ⟨'a', List.nil_prefix⟩
  obtain ⟨k, within, begins, longest⟩ : ∃ k, k ≤ bytes.length ∧ Begins (bytes.take k) ∧
      ∀ n, n ≤ bytes.length → Begins (bytes.take n) → n ≤ k :=
    ⟨Nat.findGreatest (fun n => Begins (bytes.take n)) bytes.length, Nat.findGreatest_le _,
      @Nat.findGreatest_spec 0 (fun n => Begins (bytes.take n)) _ _ (Nat.zero_le _) empty,
      fun n within begins => Nat.le_findGreatest within begins⟩
  cases k with
  | zero => exact ⟨1, Nat.le_refl 1, long, .inl rfl,
      fun n within begins => Nat.le_succ_of_le (longest n within begins)⟩
  | succ k => exact ⟨k + 1, Nat.le_add_left .., within, .inr begins, longest⟩

/-- Bytes are nothing, or a scalar value and more bytes, or a maximal subpart of a fault and more bytes. -/
theorem subpart_induction {motive : List UInt8 → Prop} (nil : motive [])
    (scalar : ∀ c rest, motive rest → motive (Utf8.encode c ++ rest))
    (fault : ∀ bytes m, (∀ c, ¬ Utf8.encode c <+: bytes) → MaximalSubpart bytes m →
      motive (bytes.drop m) → motive bytes) (bytes : List UInt8) : motive bytes := by
  induction length : bytes.length using Nat.strongRecOn generalizing bytes with
  | ind length ih =>
    subst length
    by_cases empty : bytes = []
    · rw [empty]
      exact nil
    by_cases more : ∃ c, Utf8.encode c <+: bytes
    · obtain ⟨c, rest, rfl⟩ := more
      refine scalar c rest (ih _ ?_ rest rfl)
      rw [List.length_append]
      exact Nat.lt_add_of_pos_left (List.length_pos_iff.mpr (Utf8.encode_ne_nil c))
    · obtain ⟨m, part⟩ := exists_maximalSubpart empty
      refine fault bytes m (not_exists.mp more) part (ih _ ?_ _ rfl)
      rw [List.length_drop]
      exact Nat.sub_lt (Nat.lt_of_lt_of_le part.positive part.within) part.positive

namespace SubstitutesMaximalSubparts

variable {lossy other : List UInt8 → List Char}

theorem flatMap_append (rule : SubstitutesMaximalSubparts lossy) (scalars : List Char)
    (rest : List UInt8) : lossy (scalars.flatMap Utf8.encode ++ rest) = scalars ++ lossy rest := by
  induction scalars with
  | nil => rfl
  | cons c scalars ih =>
    rw [List.flatMap_cons, List.append_assoc, rule.scalar, ih, List.cons_append]

theorem flatMap (rule : SubstitutesMaximalSubparts lossy) (scalars : List Char) :
    lossy (scalars.flatMap Utf8.encode) = scalars := by
  have whole := rule.flatMap_append scalars []
  rwa [List.append_nil, rule.nil, List.append_nil] at whole

/-- There are never more scalar values than bytes. -/
theorem length_le (rule : SubstitutesMaximalSubparts lossy) (bytes : List UInt8) :
    (lossy bytes).length ≤ bytes.length := by
  induction bytes using subpart_induction with
  | nil =>
    rw [rule.nil]
    exact Nat.le_refl 0
  | scalar c rest ih =>
    have long := List.length_pos_iff.mpr (Utf8.encode_ne_nil c)
    rw [rule.scalar, List.length_cons, List.length_append]
    omega
  | fault bytes m stuck part ih =>
    have positive := part.positive
    have within := part.within
    rw [List.length_drop] at ih
    rw [rule.fault bytes m stuck part, List.length_cons]
    omega

/-- The rule has one solution. -/
theorem unique (rule : SubstitutesMaximalSubparts lossy)
    (rule' : SubstitutesMaximalSubparts other) : lossy = other := by
  funext bytes
  induction bytes using subpart_induction with
  | nil => rw [rule.nil, rule'.nil]
  | scalar c rest ih => rw [rule.scalar, rule'.scalar, ih]
  | fault bytes m stuck part ih =>
    rw [rule.fault bytes m stuck part, rule'.fault bytes m stuck part, ih]

end SubstitutesMaximalSubparts

/-! ## Open sequences -/

/-- What completes an open sequence, and the scalar value it then has. -/
inductive Completes : Open → List UInt8 → Char → Prop
  | last {value : Nat} {least greatest byte : UInt8} : least ≤ byte → byte ≤ greatest →
      Completes ⟨value, 0, least, greatest⟩ [byte] (Char.ofNat (value * 0x40 + (byte.toNat - 0x80)))
  | more {value missing : Nat} {least greatest byte : UInt8} {tail : List UInt8} {c : Char} :
      least ≤ byte → byte ≤ greatest →
      Completes ⟨value * 0x40 + (byte.toNat - 0x80), missing, 0x80, 0xBF⟩ tail c →
      Completes ⟨value, missing + 1, least, greatest⟩ (byte :: tail) c

/-- Bytes behind which an open sequence can still be completed, or is. -/
def Continues (seq : Open) (bytes : List UInt8) : Prop := ∃ more c, Completes seq (bytes ++ more) c

theorem Completes.range (completes : Completes seq (byte :: tail) c) :
    seq.least ≤ byte ∧ byte ≤ seq.greatest := by
  cases completes with
  | last above below => exact ⟨above, below⟩
  | more above below => exact ⟨above, below⟩

theorem Continues.range (continues : Continues seq (byte :: tail)) :
    seq.least ≤ byte ∧ byte ≤ seq.greatest := by
  obtain ⟨more, c, completes⟩ := continues
  exact completes.range

theorem Completes.ne_nil (completes : Completes seq tail c) : tail ≠ [] := by
  cases completes <;> exact List.cons_ne_nil _ _

section More

variable {value missing : Nat} {least greatest : UInt8}

theorem completes_more_iff :
    Completes ⟨value, missing + 1, least, greatest⟩ (byte :: tail) c ↔
      (least ≤ byte ∧ byte ≤ greatest) ∧
        Completes ⟨value * 0x40 + (byte.toNat - 0x80), missing, 0x80, 0xBF⟩ tail c := by
  constructor
  · intro completes
    cases completes with
    | more above below completes => exact ⟨⟨above, below⟩, completes⟩
  · rintro ⟨⟨above, below⟩, completes⟩
    exact .more above below completes

theorem continues_more_iff :
    Continues ⟨value, missing + 1, least, greatest⟩ (byte :: tail) ↔
      (least ≤ byte ∧ byte ≤ greatest) ∧
        Continues ⟨value * 0x40 + (byte.toNat - 0x80), missing, 0x80, 0xBF⟩ tail := by
  simp only [Continues, List.cons_append, completes_more_iff, exists_and_left]

end More

theorem continuation_range : (0x80 : UInt8) ≤ 0xBF := by decide

/-- The least byte in range, and then any others, complete a sequence. -/
theorem continues_nil (sound : seq.least ≤ seq.greatest) : Continues seq [] := by
  obtain ⟨value, missing, least, greatest⟩ := seq
  induction missing generalizing value least greatest with
  | zero => exact ⟨[least], _, .last (UInt8.le_refl _) sound⟩
  | succ missing ih =>
    obtain ⟨more, c, completes⟩ :=
      ih (value * 0x40 + (least.toNat - 0x80)) 0x80 0xBF continuation_range
    exact ⟨least :: more, c, .more (UInt8.le_refl _) sound completes⟩

/-! ## The decoder -/

theorem decodeFrom_cons (seq : Option Open) (byte : UInt8) (bytes : List UInt8) :
    decodeFrom seq (byte :: bytes) = (step seq byte).1 ++ decodeFrom (step seq byte).2 bytes := by
  rw [decodeFrom]

theorem decode_cons (byte : UInt8) (bytes : List UInt8) :
    decode (byte :: bytes) = (start byte).1 ++ decodeFrom (start byte).2 bytes :=
  decodeFrom_cons none byte bytes

theorem decodeFrom_of_completes (completes : Completes seq tail c) (rest : List UInt8) :
    decodeFrom (some seq) (tail ++ rest) = c :: decode rest := by
  induction completes with
  | last above below =>
    rw [List.singleton_append, decodeFrom_cons, step, if_pos ⟨above, below⟩]
    rfl
  | more above below completes ih =>
    rw [List.cons_append, decodeFrom_cons, step, if_pos ⟨above, below⟩]
    exact ih

/-- A byte out of range ends the fault and is decoded afresh. -/
theorem decodeFrom_of_outside (outside : ¬ (seq.least ≤ byte ∧ byte ≤ seq.greatest))
    (bytes : List UInt8) :
    decodeFrom (some seq) (byte :: bytes) = Codespace.replacement :: decode (byte :: bytes) := by
  rw [decodeFrom_cons, step, if_neg outside, decode_cons]
  rfl

/-- A sequence that is not completed is one fault, together with all that continues it. -/
theorem decodeFrom_of_stuck (sound : seq.least ≤ seq.greatest)
    (stuck : ∀ tail c, tail <+: bytes → ¬ Completes seq tail c)
    (within : n ≤ bytes.length) (continues : Continues seq (bytes.take n))
    (longest : ∀ k, k ≤ bytes.length → Continues seq (bytes.take k) → k ≤ n) :
    decodeFrom (some seq) bytes = Codespace.replacement :: decode (bytes.drop n) := by
  -- The induction is on the bytes. One in range moves the sequence on, and `n` counts down with it.
  induction bytes generalizing seq n with
  | nil =>
    rw [List.drop_nil]
    rfl
  | cons byte bytes ih =>
    by_cases range : seq.least ≤ byte ∧ byte ≤ seq.greatest
    · obtain ⟨value, missing, least, greatest⟩ := seq
      cases missing with
      | zero =>
        exact absurd (.last range.1 range.2) (stuck [byte] _ (List.prefix_append [byte] bytes))
      | succ missing =>
        have further : Continues ⟨value, missing + 1, least, greatest⟩ ((byte :: bytes).take 1) :=
          continues_more_iff.mpr ⟨range, continues_nil continuation_range⟩
        obtain ⟨n, rfl⟩ := Nat.exists_eq_add_of_le' (longest 1 (Nat.le_add_left ..) further)
        rw [decodeFrom_cons, step, if_pos range, List.drop_succ_cons]
        refine ih continuation_range ?_ (Nat.le_of_succ_le_succ within)
          (continues_more_iff.mp continues).2 ?_
        · intro tail c front completes
          exact stuck (byte :: tail) c (List.cons_prefix_cons.mpr ⟨rfl, front⟩)
            (.more range.1 range.2 completes)
        · intro k within continues
          exact Nat.le_of_succ_le_succ (longest (k + 1) (Nat.succ_le_succ within)
            (continues_more_iff.mpr ⟨range, continues⟩))
    · cases n with
      | zero => exact decodeFrom_of_outside range bytes
      | succ n => exact absurd continues.range range

/-! ## Lead bytes -/

/-- How an open sequence stands behind its lead byte. Which second byte is in range depends on what the
value can then be, whatever bytes complete it. -/
structure Opens (lead : Lead) (seq : Open) : Prop where
  count : lead.continuations = seq.missing + 1
  payload : seq.value = lead.payload
  sound : seq.least ≤ seq.greatest
  range : ∀ byte value, extend lead.payload byte * 0x40 ^ seq.missing ≤ value →
    value < (extend lead.payload byte + 1) * 0x40 ^ seq.missing →
    ((seq.least ≤ byte ∧ byte ≤ seq.greatest) ↔
      isContinuation byte = true ∧ lead.least ≤ value ∧ value.isValidChar)

theorem start_eq (byte : UInt8) :
    start byte =
      if byte.toNat ≤ 0x7F then ([Char.ofNat byte.toNat], none)
      else if byte.toNat < 0xC2 then ([Codespace.replacement], none)
      else if byte.toNat ≤ 0xDF then ([], some ⟨byte.toNat - 0xC0, 0, 0x80, 0xBF⟩)
      else if byte.toNat = 0xE0 then ([], some ⟨0x0, 1, 0xA0, 0xBF⟩)
      else if byte.toNat = 0xED then ([], some ⟨0xD, 1, 0x80, 0x9F⟩)
      else if byte.toNat ≤ 0xEF then ([], some ⟨byte.toNat - 0xE0, 1, 0x80, 0xBF⟩)
      else if byte.toNat = 0xF0 then ([], some ⟨0x0, 2, 0x90, 0xBF⟩)
      else if byte.toNat ≤ 0xF3 then ([], some ⟨byte.toNat - 0xF0, 2, 0x80, 0xBF⟩)
      else if byte.toNat = 0xF4 then ([], some ⟨0x4, 2, 0x80, 0x8F⟩)
      else ([Codespace.replacement], none) := by
  simp only [start, UInt8.le_iff_toNat_le, UInt8.lt_iff_toNat_lt, ← UInt8.toNat_inj]
  rfl

/-- It is enough to compare numbers, as the second byte continues the sequence anyway. -/
theorem Opens.of_bounds {payload least missing : Nat} {low high : UInt8}
    (inside : 0x80 ≤ low.toNat ∧ low.toNat ≤ high.toNat ∧ high.toNat ≤ 0xBF)
    (range : ∀ b value, 0x80 ≤ b → b ≤ 0xBF → (payload * 0x40 + b % 0x40) * 0x40 ^ missing ≤ value →
      value < (payload * 0x40 + b % 0x40 + 1) * 0x40 ^ missing →
      ((low.toNat ≤ b ∧ b ≤ high.toNat) ↔
        least ≤ value ∧ (value < 0xD800 ∨ 0xDFFF < value ∧ value < 0x110000))) :
    Opens ⟨missing + 1, payload, least⟩ ⟨payload, missing, low, high⟩ := by
  obtain ⟨above, sound, below⟩ := inside
  refine ⟨rfl, rfl, UInt8.le_iff_toNat_le.mpr sound, fun byte value least most => ?_⟩
  have range := fun above below => range byte.toNat value above below least most
  rw [isContinuation_iff]
  change (low.toNat ≤ byte.toNat ∧ byte.toNat ≤ high.toNat) ↔ _
  constructor
  · intro within
    have follows : 0x80 ≤ byte.toNat ∧ byte.toNat ≤ 0xBF := by omega
    exact ⟨follows, (range follows.1 follows.2).mp within⟩
  · rintro ⟨follows, valid⟩
    exact (range follows.1 follows.2).mpr valid

/-- The lead byte of two. -/
theorem opens_of_two (bounds : 0xC2 ≤ byte.toNat ∧ byte.toNat ≤ 0xDF) :
    ∃ seq, start byte = ([], some seq) ∧ Opens ⟨1, byte.toNat % 0x20, 0x80⟩ seq := by
  refine ⟨⟨byte.toNat % 0x20, 0, 0x80, 0xBF⟩, ?_, .of_bounds (by decide) ?_⟩
  · rw [start_eq, if_neg (by omega), if_neg (by omega), if_pos (by omega)]
    have payload : byte.toNat - 0xC0 = byte.toNat % 0x20 := by omega
    rw [payload]
  · intro b value above below least most
    change (0x80 ≤ b ∧ b ≤ 0xBF) ↔ _
    omega

/-- The lead byte of three. Behind 0xE0 the value can be too small, and behind 0xED that of a surrogate. -/
theorem opens_of_three (bounds : 0xE0 ≤ byte.toNat ∧ byte.toNat ≤ 0xEF) :
    ∃ seq, start byte = ([], some seq) ∧ Opens ⟨2, byte.toNat % 0x10, 0x800⟩ seq := by
  rw [start_eq, if_neg (by omega), if_neg (by omega), if_neg (by omega)]
  split
  next value =>
    rw [value]
    refine ⟨_, rfl, .of_bounds (by decide) ?_⟩
    intro b value above below least most
    change (0xA0 ≤ b ∧ b ≤ 0xBF) ↔ _
    omega
  split
  next value =>
    rw [value]
    refine ⟨_, rfl, .of_bounds (by decide) ?_⟩
    intro b value above below least most
    change (0x80 ≤ b ∧ b ≤ 0x9F) ↔ _
    omega
  next =>
    have payload : byte.toNat - 0xE0 = byte.toNat % 0x10 := by omega
    rw [if_pos bounds.2, payload]
    refine ⟨_, rfl, .of_bounds (by decide) ?_⟩
    intro b value above below least most
    change (0x80 ≤ b ∧ b ≤ 0xBF) ↔ _
    omega

/-- The lead byte of four. Behind 0xF0 the value can be too small, and behind 0xF4 too large. -/
theorem opens_of_four (bounds : 0xF0 ≤ byte.toNat ∧ byte.toNat ≤ 0xF4) :
    ∃ seq, start byte = ([], some seq) ∧ Opens ⟨3, byte.toNat % 0x08, 0x10000⟩ seq := by
  rw [start_eq, if_neg (by omega), if_neg (by omega), if_neg (by omega), if_neg (by omega),
    if_neg (by omega), if_neg (by omega)]
  split
  next value =>
    rw [value]
    refine ⟨_, rfl, .of_bounds (by decide) ?_⟩
    intro b value above below least most
    change (0x90 ≤ b ∧ b ≤ 0xBF) ↔ _
    omega
  split
  next =>
    have payload : byte.toNat - 0xF0 = byte.toNat % 0x08 := by omega
    rw [payload]
    refine ⟨_, rfl, .of_bounds (by decide) ?_⟩
    intro b value above below least most
    change (0x80 ≤ b ∧ b ≤ 0xBF) ↔ _
    omega
  next =>
    have value : byte.toNat = 0xF4 := by omega
    rw [if_pos value, value]
    refine ⟨_, rfl, .of_bounds (by decide) ?_⟩
    intro b value above below least most
    change (0x80 ≤ b ∧ b ≤ 0x8F) ↔ _
    omega

/-- A byte is a character, is replaced by itself, or opens a sequence. -/
theorem start_cases (byte : UInt8) :
    (Lead.ofByte? byte = some ⟨0, byte.toNat, 0⟩ ∧
      start byte = ([Char.ofNat byte.toNat], none)) ∨
    (Lead.ofByte? byte = none ∧ start byte = ([Codespace.replacement], none)) ∨
    ∃ lead seq, Lead.ofByte? byte = some lead ∧ start byte = ([], some seq) ∧ Opens lead seq := by
  rw [Lead.ofByte?_eq]
  split
  next single => exact .inl ⟨rfl, by rw [start_eq, if_pos single]⟩
  split
  next bounds =>
    obtain ⟨seq, opened, opens⟩ := opens_of_two bounds
    exact .inr (.inr ⟨_, seq, rfl, opened, opens⟩)
  split
  next bounds =>
    obtain ⟨seq, opened, opens⟩ := opens_of_three bounds
    exact .inr (.inr ⟨_, seq, rfl, opened, opens⟩)
  split
  next bounds =>
    obtain ⟨seq, opened, opens⟩ := opens_of_four bounds
    exact .inr (.inr ⟨_, seq, rfl, opened, opens⟩)
  next =>
    refine .inr (.inl ⟨rfl, ?_⟩)
    rw [start_eq]
    by_cases low : byte.toNat < 0xC2
    · rw [if_neg (by omega), if_pos low]
    · rw [if_neg (by omega), if_neg low, if_neg (by omega), if_neg (by omega), if_neg (by omega),
        if_neg (by omega), if_neg (by omega), if_neg (by omega), if_neg (by omega)]

/-! ## Sequences and scalar values -/

/-- The bytes behind `value` are its low digits. -/
theorem foldl_extend_bounds (value : Nat) (tail : List UInt8) :
    value * 0x40 ^ tail.length ≤ tail.foldl extend value ∧
      tail.foldl extend value < (value + 1) * 0x40 ^ tail.length := by
  induction tail generalizing value with
  | nil => simp
  | cons byte tail ih =>
    obtain ⟨least, most⟩ := ih (extend value byte)
    have digit : value * 0x40 ≤ extend value byte ∧ extend value byte + 1 ≤ (value + 1) * 0x40 := by
      unfold extend
      omega
    rw [List.length_cons, Nat.pow_succ', ← Nat.mul_assoc, ← Nat.mul_assoc, List.foldl_cons]
    exact ⟨Nat.le_trans (Nat.mul_le_mul_right _ digit.1) least,
      Nat.lt_of_lt_of_le most (Nat.mul_le_mul_right _ digit.2)⟩

theorem extend_of_isContinuation (continues : isContinuation byte = true) (value : Nat) :
    extend value byte = value * 0x40 + (byte.toNat - 0x80) := by
  rw [isContinuation_iff] at continues
  unfold extend
  omega

theorem completes_cons_iff : Completes seq (byte :: tail) c ↔
    (seq.least ≤ byte ∧ byte ≤ seq.greatest) ∧ tail.length = seq.missing ∧
      (∀ byte ∈ tail, isContinuation byte = true) ∧
      c = Char.ofNat (tail.foldl extend (seq.value * 0x40 + (byte.toNat - 0x80))) := by
  obtain ⟨value, missing, least, greatest⟩ := seq
  induction missing generalizing value least greatest byte tail with
  | zero =>
    constructor
    · intro completes
      cases completes with
      | last above below => exact ⟨⟨above, below⟩, rfl, List.forall_mem_nil _, rfl⟩
    · rintro ⟨⟨above, below⟩, length, -, rfl⟩
      obtain rfl := List.length_eq_zero_iff.mp length
      exact .last above below
  | succ missing ih =>
    rw [completes_more_iff]
    refine and_congr_right fun _ => ?_
    cases tail with
    | nil => exact ⟨fun completes => absurd rfl completes.ne_nil, fun given => nomatch given.1⟩
    | cons second tail =>
      rw [ih, List.forall_mem_cons, List.length_cons, Nat.succ_inj, List.foldl_cons]
      constructor
      · rintro ⟨range, length, follow, rfl⟩
        have continues := isContinuation_iff_le.mpr range
        exact ⟨length, ⟨continues, follow⟩, by rw [extend_of_isContinuation continues]⟩
      · rintro ⟨length, ⟨continues, follow⟩, rfl⟩
        exact ⟨isContinuation_iff_le.mp continues, length, follow,
          by rw [extend_of_isContinuation continues]⟩

/-- What completes a sequence encodes the scalar value together with the lead byte. -/
theorem Opens.completes_iff (opens : Opens lead seq) (announced : Lead.ofByte? byte = some lead) :
    Completes seq tail c ↔ byte :: tail = Utf8.encode c := by
  rw [← Utf8.spells_iff]
  cases tail with
  | nil =>
    constructor
    · intro completes
      exact absurd rfl completes.ne_nil
    · rintro ⟨first, lead', tail, shape, announced', length, -⟩
      obtain ⟨rfl, rfl⟩ := List.cons.inj shape
      obtain rfl := Option.some.inj (announced.symm.trans announced')
      rw [opens.count] at length
      cases length
  | cons second tail =>
    have bounds := foldl_extend_bounds (extend lead.payload second) tail
    rw [completes_cons_iff]
    constructor
    · rintro ⟨range, length, follow, rfl⟩
      rw [length] at bounds
      obtain ⟨continues, least, valid⟩ := (opens.range second _ bounds.1 bounds.2).mp range
      rw [opens.payload, ← extend_of_isContinuation continues]
      refine ⟨byte, lead, second :: tail, rfl, announced, ?_,
        List.forall_mem_cons.mpr ⟨continues, follow⟩, ?_, ?_⟩
      · rw [List.length_cons, length, opens.count]
      · rwa [Codespace.toNat_ofNat valid]
      · rw [Codespace.toNat_ofNat valid, List.foldl_cons]
    · rintro ⟨first, lead', tail', shape, announced', length, follow, least, value⟩
      obtain ⟨rfl, rfl⟩ := List.cons.inj shape
      obtain rfl := Option.some.inj (announced.symm.trans announced')
      rw [opens.count, List.length_cons, Nat.succ_inj] at length
      rw [List.foldl_cons] at value
      rw [length, value] at bounds
      obtain ⟨continues, follow⟩ := List.forall_mem_cons.mp follow
      refine ⟨(opens.range second c.toNat bounds.1 bounds.2).mpr ⟨continues, least, c.valid⟩, length,
        follow, ?_⟩
      rw [opens.payload, ← extend_of_isContinuation continues, value, Char.ofNat_toNat]

theorem Opens.begins_iff (opens : Opens lead seq) (announced : Lead.ofByte? byte = some lead) :
    Begins (byte :: tail) ↔ Continues seq tail := by
  constructor
  · rintro ⟨c, more, whole⟩
    exact ⟨more, c, (opens.completes_iff announced).mpr whole⟩
  · rintro ⟨more, c, completes⟩
    exact ⟨c, more, (opens.completes_iff announced).mp completes⟩

/-- A byte that announces no others is all there is of its scalar value. -/
theorem encode_of_single (announced : Lead.ofByte? byte = some ⟨0, byte.toNat, 0⟩) :
    byte :: tail = Utf8.encode c ↔ tail = [] ∧ c = Char.ofNat byte.toNat := by
  rw [← Utf8.spells_iff]
  constructor
  · rintro ⟨first, lead, tail, shape, announced', length, -, -, value⟩
    obtain ⟨rfl, rfl⟩ := List.cons.inj shape
    obtain rfl := Option.some.inj (announced.symm.trans announced')
    obtain rfl := List.length_eq_zero_iff.mp length
    exact ⟨rfl, by rw [← Char.ofNat_toNat c, ← value]; rfl⟩
  · rintro ⟨rfl, rfl⟩
    have small := byte.toNat_lt
    have valid : byte.toNat.isValidChar := .inl (by omega)
    exact ⟨byte, _, [], rfl, announced, rfl, List.forall_mem_nil _, Nat.zero_le _,
      (Codespace.toNat_ofNat valid).symm⟩

theorem not_begins_of_stray (stray : Lead.ofByte? byte = none) : ¬ Begins (byte :: tail) := by
  rintro ⟨c, more, whole⟩
  obtain ⟨first, lead, tail, shape, announced, -⟩ := Utf8.spells_iff.mpr whole
  obtain ⟨rfl, -⟩ := List.cons.inj shape
  rw [stray] at announced
  cases announced

/-! ## The decoder obeys the rule -/

theorem decode_encode_append (c : Char) (rest : List UInt8) :
    decode (Utf8.encode c ++ rest) = c :: decode rest := by
  obtain ⟨byte, tail, shape⟩ := List.exists_cons_of_ne_nil (Utf8.encode_ne_nil c)
  rw [shape, List.cons_append, decode_cons]
  rcases start_cases byte with
    ⟨announced, given⟩ | ⟨stray, -⟩ | ⟨lead, seq, announced, given, opens⟩
  · obtain ⟨rfl, rfl⟩ := (encode_of_single announced).mp shape.symm
    rw [given]
    rfl
  · exact absurd ⟨c, [], by rw [List.append_nil, shape]⟩ (not_begins_of_stray stray)
  · rw [given]
    exact decodeFrom_of_completes ((opens.completes_iff announced).mpr shape.symm) rest

theorem decode_of_maximalSubpart (stuck : ∀ c, ¬ Utf8.encode c <+: bytes)
    (part : MaximalSubpart bytes m) :
    decode bytes = Codespace.replacement :: decode (bytes.drop m) := by
  obtain ⟨m, rfl⟩ := Nat.exists_eq_add_of_le' part.positive
  cases bytes with
  | nil => exact absurd part.within (Nat.not_succ_le_zero m)
  | cons byte bytes =>
    rw [decode_cons, List.drop_succ_cons]
    rcases start_cases byte with
      ⟨announced, -⟩ | ⟨stray, given⟩ | ⟨lead, seq, announced, given, opens⟩
    · have whole : [byte] = Utf8.encode (Char.ofNat byte.toNat) :=
        (encode_of_single announced).mpr ⟨rfl, rfl⟩
      refine absurd ?_ (stuck (Char.ofNat byte.toNat))
      rw [← whole]
      exact List.prefix_append [byte] bytes
    · obtain same | begins := part.begins
      · obtain rfl := Nat.succ_inj.mp same
        rw [given]
        rfl
      · exact absurd begins (not_begins_of_stray stray)
    · rw [given]
      refine decodeFrom_of_stuck opens.sound ?_ (Nat.le_of_succ_le_succ part.within) ?_ ?_
      · intro tail c front completes
        refine stuck c ?_
        rw [← (opens.completes_iff announced).mp completes]
        exact List.cons_prefix_cons.mpr ⟨rfl, front⟩
      · obtain same | begins := part.begins
        · obtain rfl := Nat.succ_inj.mp same
          exact continues_nil opens.sound
        · exact (opens.begins_iff announced).mp begins
      · intro k within continues
        exact Nat.le_of_succ_le_succ (part.longest (k + 1) (Nat.succ_le_succ within)
          ((opens.begins_iff announced).mpr continues))

theorem substitutesMaximalSubparts_decode : SubstitutesMaximalSubparts decode :=
  ⟨rfl, decode_encode_append, fun _ _ => decode_of_maximalSubpart⟩

/-- To follow sequences byte by byte is to obey the rule, and nothing else is. -/
theorem substitutesMaximalSubparts_iff {lossy : List UInt8 → List Char} :
    SubstitutesMaximalSubparts lossy ↔ lossy = decode :=
  ⟨fun rule => rule.unique substitutesMaximalSubparts_decode,
    fun same => same ▸ substitutesMaximalSubparts_decode⟩

end UnicodeInput.Codec.Lossy
