import UnicodeInput.Codec.Mark
import UnicodeInput.Codespace.Lemmas
import UnicodeInput.Source.Memory

/-! Reading bytes in memory. On a source with no byte given back, every reader that succeeds has taken
a prefix of the bytes not read yet and leaves the source without it, and it succeeds wherever such a
prefix is there. The readers of a byte, of several bytes and of a mark are described that way, so what
is built of them never looks at a source again. Taking bytes fails only where they run out, and then at
the end of the input. -/
namespace UnicodeInput

/-! ## Runs in two parts -/

section Runs

variable {ε ε' σ α β : Type} {s s' : σ}

theorem bind_eq_ok_iff {x : EStateM ε σ α} {f : α → EStateM ε σ β} {b : β} :
    (x >>= f) s = .ok b s' ↔ ∃ a t, x s = .ok a t ∧ f a t = .ok b s' := by
  change EStateM.bind x f s = .ok b s' ↔ _
  unfold EStateM.bind
  cases h : x s with
  | ok a t => simp [and_assoc]
  | error e t => simp

theorem bind_of_ok {x : EStateM ε σ α} {f : α → EStateM ε σ β} {a : α} {t : σ} (h : x s = .ok a t) :
    (x >>= f) s = f a t := by
  change EStateM.bind x f s = _
  rw [EStateM.bind, h]

theorem bind_of_error {x : EStateM ε σ α} {f : α → EStateM ε σ β} {e : ε} {t : σ}
    (h : x s = .error e t) : (x >>= f) s = .error e t := by
  change EStateM.bind x f s = _
  rw [EStateM.bind, h]

theorem map_eq_ok_iff {x : EStateM ε σ α} {f : α → β} {b : β} :
    (f <$> x) s = .ok b s' ↔ ∃ a, x s = .ok a s' ∧ f a = b := by
  change EStateM.map f x s = .ok b s' ↔ _
  unfold EStateM.map
  cases h : x s with
  | ok a t => simp only [EStateM.Result.ok.injEq]; grind
  | error e t => simp

theorem adaptExcept_eq_ok_iff {x : EStateM ε σ α} {f : ε → ε'} {a : α} :
    EStateM.adaptExcept f x s = .ok a s' ↔ x s = .ok a s' := by
  unfold EStateM.adaptExcept
  cases h : x s <;> simp

@[simp] theorem pure_eq_ok_iff {a b : α} :
    (pure a : EStateM ε σ α) s = .ok b s' ↔ a = b ∧ s = s' := by
  change EStateM.Result.ok a s = .ok b s' ↔ _
  simp

@[simp] theorem throw_ne_ok {e : ε} {b : β} : ¬ (throw e : EStateM ε σ β) s = .ok b s' := by
  change ¬ EStateM.Result.error e s = .ok b s'
  simp

/-! The same runs where they fail: in the first part, or in the second after the first. -/

theorem bind_eq_error_iff {x : EStateM ε σ α} {f : α → EStateM ε σ β} {e : ε} :
    (x >>= f) s = .error e s' ↔
      x s = .error e s' ∨ ∃ a t, x s = .ok a t ∧ f a t = .error e s' := by
  change EStateM.bind x f s = .error e s' ↔ _
  unfold EStateM.bind
  cases h : x s with
  | ok a t => simp [and_assoc]
  | error e t => simp

theorem map_eq_error_iff {x : EStateM ε σ α} {f : α → β} {e : ε} :
    (f <$> x) s = .error e s' ↔ x s = .error e s' := by
  change EStateM.map f x s = .error e s' ↔ _
  unfold EStateM.map
  cases h : x s <;> simp

theorem adaptExcept_eq_error_iff {x : EStateM ε σ α} {f : ε → ε'} {e : ε'} :
    EStateM.adaptExcept f x s = .error e s' ↔ ∃ cause, x s = .error cause s' ∧ f cause = e := by
  unfold EStateM.adaptExcept
  cases h : x s with
  | ok a t => simp
  | error cause t => simp only [EStateM.Result.error.injEq]; grind

@[simp] theorem pure_ne_error {a : α} {e : ε} : ¬ (pure a : EStateM ε σ α) s = .error e s' := by
  change ¬ EStateM.Result.ok a s = .error e s'
  simp

@[simp] theorem throw_eq_error_iff {e e' : ε} :
    (throw e : EStateM ε σ α) s = .error e' s' ↔ e = e' ∧ s = s' := by
  change EStateM.Result.error e s = .error e' s' ↔ _
  simp

end Runs

/-! ## Sources in memory -/

namespace MemorySource

variable {source after : MemorySource}

@[simp] theorem skip_zero (source : MemorySource) : source.skip 0 = source := rfl

@[simp] theorem skip_skip (source : MemorySource) (m n : Nat) :
    (source.skip m).skip n = source.skip (m + n) := by
  simp [skip, Nat.add_assoc]

@[simp] theorem rest_skip (source : MemorySource) (n : Nat) :
    (source.skip n).rest = source.rest.drop n := rfl

@[simp] theorem pending_skip (source : MemorySource) (n : Nat) :
    (source.skip n).pending = source.pending := rfl

/-- The offset one past the last byte. -/
def finish (source : MemorySource) : Nat := source.offset + source.rest.length

theorem finish_skip {n : Nat} (inside : n ≤ source.rest.length) :
    (source.skip n).finish = source.finish := by
  simp only [finish, skip, List.length_drop]
  omega

theorem position_of_free (free : source.pending = none) : source.position = source.offset := by
  rw [position, free]

theorem hasNext_eq_true_iff (free : source.pending = none) :
    source.hasNext = true ↔ source.rest ≠ [] := by
  simp [hasNext, free]

theorem hasNext_eq_more_iff (free : source.pending = none) :
    ByteSource.hasNext source = (true, after) ↔ source.rest ≠ [] ∧ after = source := by
  change (source.hasNext, source) = _ ↔ _
  rw [Prod.mk.injEq, hasNext_eq_true_iff free, @eq_comm _ source]

theorem hasNext_eq_end_iff (free : source.pending = none) :
    ByteSource.hasNext source = (false, after) ↔ source.rest = [] ∧ after = source := by
  change (source.hasNext, source) = _ ↔ _
  rw [Prod.mk.injEq, ← Bool.not_eq_true, hasNext_eq_true_iff free, ne_eq, Decidable.not_not,
    @eq_comm _ source]

theorem read_eq_ok_iff (free : source.pending = none) {byte : UInt8} :
    ByteSource.read source = .ok byte after ↔
      [byte] <+: source.rest ∧ after = source.skip 1 := by
  change read source = _ ↔ _
  obtain ⟨rest, offset, pending⟩ := source
  obtain rfl : pending = none := free
  cases rest with
  | nil => simp [read]
  | cons first rest => simp [read, skip, eq_comm]

theorem read_eq_error_iff (free : source.pending = none) {e : SourceError} :
    ByteSource.read source = .error e after ↔
      source.rest = [] ∧ e = .exhausted source.finish ∧ after = source := by
  change read source = _ ↔ _
  obtain ⟨rest, offset, pending⟩ := source
  obtain rfl : pending = none := free
  cases rest with
  | nil => simp [read, finish, eq_comm]
  | cons first rest => simp [read]

end MemorySource

/-! ## Readers -/

namespace Codec

variable {source after : MemorySource}

@[simp] theorem here_eq_ok_iff {ε : Type} {offset : Nat} :
    (ByteSource.here : EStateM ε MemorySource Nat) source = .ok offset after ↔
      source.position = offset ∧ source = after := by
  change EStateM.Result.ok source.position source = .ok offset after ↔ _
  simp

/-- Every decoder notes where it starts. -/
theorem here_bind_of_free (free : source.pending = none) {ε α : Type}
    (f : Nat → EStateM ε MemorySource α) :
    (ByteSource.here >>= f) source = f source.offset source := by
  change f source.position source = _
  rw [MemorySource.position_of_free free]

@[simp] theorem more_eq_ok_iff {ε : Type} {answer : Bool} :
    (ByteSource.more : EStateM ε MemorySource Bool) source = .ok answer after ↔
      source.hasNext = answer ∧ source = after := by
  change EStateM.Result.ok source.hasNext source = .ok answer after ↔ _
  simp

@[simp] theorem scalarOr_eq_ok_iff {σ : Type} {s s' : σ} {e : DecodeError} {value : Nat} {c : Char} :
    scalarOr e value s = .ok c s' ↔ c.toNat = value ∧ s = s' := by
  rw [scalarOr, ← Codespace.scalar?_eq_some_iff]
  cases Codespace.scalar? value with
  | none => simp
  | some d => simp

theorem more_of_hasNext {σ ε : Type} [ByteSource σ] {s asked : σ} {answer : Bool}
    (h : ByteSource.hasNext s = (answer, asked)) :
    (ByteSource.more : EStateM ε σ Bool) s = .ok answer asked := by
  rw [ByteSource.more, h]

theorem nextByte_eq_ok_iff {encoding : Encoding} (free : source.pending = none) {byte : UInt8} :
    nextByte encoding source = .ok byte after ↔ [byte] <+: source.rest ∧ after = source.skip 1 := by
  rw [nextByte, adaptExcept_eq_ok_iff]
  exact MemorySource.read_eq_ok_iff free

theorem nextByte_eq_error_iff {encoding : Encoding} (free : source.pending = none) {e : DecodeError} :
    nextByte encoding source = .error e after ↔
      source.rest = [] ∧ e = .truncated encoding source.finish ∧ after = source := by
  rw [nextByte, adaptExcept_eq_error_iff]
  constructor
  · intro given
    obtain ⟨cause, refused, rfl⟩ := given
    obtain ⟨empty, rfl, rfl⟩ := (MemorySource.read_eq_error_iff free).mp refused
    exact ⟨empty, rfl, rfl⟩
  · intro given
    obtain ⟨empty, rfl, rfl⟩ := given
    exact ⟨_, (MemorySource.read_eq_error_iff free).mpr ⟨empty, rfl, rfl⟩, rfl⟩

/-- A source with no byte given back takes one. -/
theorem putBack_ne_error (free : source.pending = none) {byte : UInt8} {e : DecodeError} :
    ¬ putBack byte source = .error e after := by
  rw [putBack, adaptExcept_eq_error_iff]
  intro refused
  obtain ⟨cause, refused, -⟩ := refused
  change MemorySource.unread byte source = _ at refused
  simp [MemorySource.unread, free] at refused

theorem scalarOr_eq_error_iff {σ : Type} {s s' : σ} {e e' : DecodeError} {value : Nat} :
    scalarOr e value s = .error e' s' ↔ Codespace.scalar? value = none ∧ e = e' ∧ s = s' := by
  rw [scalarOr]
  cases Codespace.scalar? value with
  | none => simp
  | some c => simp

/-- A prefix of two parts is its first part, and the second after it. -/
theorem append_prefix_iff {α : Type} {front back list : List α} :
    front ++ back <+: list ↔ front <+: list ∧ back <+: list.drop front.length := by
  constructor
  · intro given
    obtain ⟨tail, rfl⟩ := given
    simp [List.append_assoc]
  · intro given
    obtain ⟨⟨tail, rfl⟩, h⟩ := given
    rw [List.drop_left] at h
    exact (List.prefix_append_right_inj front).mpr h

theorem nextBytes_eq_ok_iff {encoding : Encoding} (free : source.pending = none) {n : Nat}
    {bytes : List UInt8} :
    nextBytes encoding n source = .ok bytes after ↔
      bytes <+: source.rest ∧ bytes.length = n ∧ after = source.skip n := by
  induction n generalizing source after bytes with
  | zero =>
    rw [nextBytes, pure_eq_ok_iff, List.length_eq_zero_iff, MemorySource.skip_zero]
    constructor
    · intro given
      obtain ⟨rfl, rfl⟩ := given
      exact ⟨List.nil_prefix, rfl, rfl⟩
    · intro given
      obtain ⟨-, rfl, rfl⟩ := given
      exact ⟨rfl, rfl⟩
  | succ n ih =>
    have free' : (source.skip 1).pending = none := free
    rw [nextBytes, bind_eq_ok_iff]
    constructor
    · intro given
      obtain ⟨byte, behind, first, run⟩ := given
      obtain ⟨front, rfl⟩ := (nextByte_eq_ok_iff free).mp first
      obtain ⟨rest, last, others, done⟩ := bind_eq_ok_iff.mp run
      obtain ⟨rfl, rfl⟩ := pure_eq_ok_iff.mp done
      obtain ⟨back, length, rfl⟩ := (ih free').mp others
      refine ⟨append_prefix_iff.mpr ⟨front, back⟩, by simp [length], ?_⟩
      rw [MemorySource.skip_skip, Nat.add_comm]
    · intro given
      obtain ⟨whole, length, rfl⟩ := given
      obtain ⟨byte, rest, rfl⟩ := List.exists_cons_of_length_eq_add_one length
      obtain ⟨front, back⟩ := append_prefix_iff.mp (show [byte] ++ rest <+: source.rest from whole)
      refine ⟨byte, source.skip 1, (nextByte_eq_ok_iff free).mpr ⟨front, rfl⟩, ?_⟩
      have others := (ih free').mpr ⟨back, by simpa using length, rfl⟩
      rw [MemorySource.skip_skip, Nat.add_comm] at others
      exact bind_eq_ok_iff.mpr ⟨rest, _, others, rfl⟩

/-- Several bytes are missing where fewer are left, and the last of these is taken first. -/
theorem nextBytes_eq_error_iff {encoding : Encoding} (free : source.pending = none) {n : Nat}
    {e : DecodeError} :
    nextBytes encoding n source = .error e after ↔
      source.rest.length < n ∧ e = .truncated encoding source.finish ∧
        after = source.skip source.rest.length := by
  induction n generalizing source with
  | zero => simp [nextBytes]
  | succ n ih =>
    have free' : (source.skip 1).pending = none := free
    rw [nextBytes, bind_eq_error_iff, nextByte_eq_error_iff free]
    constructor
    · intro given
      rcases given with ⟨empty, rfl, rfl⟩ | ⟨byte, behind, first, given⟩
      · rw [empty]
        exact ⟨Nat.succ_pos n, rfl, rfl⟩
      · obtain ⟨front, rfl⟩ := (nextByte_eq_ok_iff free).mp first
        have taken : 1 ≤ source.rest.length := front.length_le
        rcases bind_eq_error_iff.mp given with given | ⟨rest, last, -, done⟩
        · obtain ⟨short, rfl, rfl⟩ := (ih free').mp given
          rw [MemorySource.rest_skip, List.length_drop] at short ⊢
          rw [MemorySource.finish_skip taken, MemorySource.skip_skip, Nat.add_sub_cancel' taken]
          exact ⟨by omega, rfl, rfl⟩
        · exact absurd done pure_ne_error
    · intro given
      obtain ⟨short, rfl, rfl⟩ := given
      by_cases empty : source.rest = []
      · rw [empty]
        exact .inl ⟨rfl, rfl, rfl⟩
      · obtain ⟨byte, tail, left⟩ := List.exists_cons_of_ne_nil empty
        have front : [byte] <+: source.rest := ⟨tail, left.symm⟩
        have taken : 1 ≤ source.rest.length := front.length_le
        refine .inr ⟨byte, source.skip 1, (nextByte_eq_ok_iff free).mpr ⟨front, rfl⟩, ?_⟩
        refine bind_eq_error_iff.mpr (.inl ((ih free').mpr ?_))
        rw [MemorySource.rest_skip, List.length_drop, MemorySource.finish_skip taken,
          MemorySource.skip_skip, Nat.add_sub_cancel' taken]
        exact ⟨by omega, rfl, rfl⟩

theorem expectBytes_eq_ok_iff {encoding : Encoding} (free : source.pending = none)
    {expected : List UInt8} :
    expectBytes encoding expected source = .ok () after ↔
      expected <+: source.rest ∧ after = source.skip expected.length := by
  induction expected generalizing source with
  | nil => simp [expectBytes, eq_comm]
  | cons byte expected ih =>
    have free' : (source.skip 1).pending = none := free
    rw [expectBytes, ← List.singleton_append, append_prefix_iff]
    cases step : ByteSource.read source with
    | error e behind =>
      have absent : ¬ [byte] <+: source.rest := by
        intro h
        rw [(MemorySource.read_eq_ok_iff free).mpr ⟨h, rfl⟩] at step
        cases step
      cases e <;> simp [step, absent]
    | ok got behind =>
      obtain ⟨front, rfl⟩ := (MemorySource.read_eq_ok_iff free).mp step
      by_cases same : got = byte
      · subst same
        simp only [step, if_pos, front, true_and]
        rw [ih free', MemorySource.skip_skip, List.length_append]
        rfl
      · have absent : ¬ [byte] <+: source.rest := by
          intro h
          rw [(MemorySource.read_eq_ok_iff free).mpr ⟨h, rfl⟩] at step
          cases step
          exact same rfl
        simp [step, same, absent]

/-- Where the bytes expected are not there, the first of them that is different or missing is named, and
a different byte in its place is taken too. -/
theorem expectBytes_of_not_prefix (encoding : Encoding) (free : source.pending = none)
    {expected : List UInt8} (absent : ¬ expected <+: source.rest) :
    ∃ n byte, expected[n]? = some byte ∧ expected.take n <+: source.rest ∧
      ¬ expected.take (n + 1) <+: source.rest ∧
      expectBytes encoding expected source =
        .error (.wrongMark encoding byte (source.offset + n))
          (source.skip (min (n + 1) source.rest.length)) := by
  induction expected generalizing source with
  | nil => exact absurd List.nil_prefix absent
  | cons byte expected ih =>
    have free' : (source.skip 1).pending = none := free
    have start : ByteSource.position source = source.offset := MemorySource.position_of_free free
    unfold expectBytes
    dsimp only
    rw [start]
    cases ahead : source.rest with
    | nil =>
      rw [(MemorySource.read_eq_error_iff free).mpr ⟨ahead, rfl, rfl⟩]
      exact ⟨0, byte, rfl, List.nil_prefix, by simp, rfl⟩
    | cons got rest =>
      rw [(MemorySource.read_eq_ok_iff free).mpr ⟨⟨rest, ahead.symm⟩, rfl⟩]
      dsimp only
      by_cases same : got = byte
      · subst same
        rw [ahead, List.cons_prefix_cons, and_iff_right rfl] at absent
        have behind : (source.skip 1).rest = rest := by rw [MemorySource.rest_skip, ahead]; rfl
        obtain ⟨n, wanted, found, front, differs, refused⟩ := ih free' (behind ▸ absent)
        rw [behind] at front differs refused
        rw [if_pos rfl, refused, MemorySource.skip_skip]
        refine ⟨n + 1, wanted, found, ?_, ?_, ?_⟩
        · exact List.cons_prefix_cons.mpr ⟨rfl, front⟩
        · exact fun whole => differs (List.cons_prefix_cons.mp whole).2
        · rw [List.length_cons, Nat.add_min_add_right, Nat.add_comm 1, MemorySource.skip,
            Nat.add_assoc, Nat.add_comm 1]
      · rw [if_neg same]
        refine ⟨0, byte, rfl, List.nil_prefix, ?_, by simp⟩
        rw [Nat.zero_add, List.take_succ_cons, List.take_zero, List.cons_prefix_cons]
        exact fun whole => same whole.1.symm

end Codec

end UnicodeInput
