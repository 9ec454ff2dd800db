import UnicodeInput.Proofs.Codec.Whole

/-! The two kinds of UTF-8. They differ in the mark alone: on any source a decoder of the one kind does
what a decoder of the other does, and names its own kind in what it reports. The mark is the sequence of
one scalar value. So to skip it is to decode it and leave it out, and an offset counts its bytes either
way. -/
namespace UnicodeInput

/-- The same cause, with another encoding named as the one that was expected. -/
def DecodeError.naming (encoding : Encoding) : DecodeError → DecodeError
  | truncated _ offset => truncated encoding offset
  | malformed _ offset => malformed encoding offset
  | loneSurrogate _ offset unit => loneSurrogate encoding offset unit
  | wrongMark _ expected offset => wrongMark encoding expected offset
  | source error => source error

namespace Codec

/-! ## Any source -/

section Runs

variable {σ ε ε' ε'' α β : Type}

theorem adaptExcept_bind (f : ε → ε') (x : EStateM ε σ α) (g : α → EStateM ε σ β) :
    EStateM.adaptExcept f (x >>= g) =
      (EStateM.adaptExcept f x >>= fun a => EStateM.adaptExcept f (g a)) := by
  funext s
  rw [EStateM.adaptExcept]
  cases done : x s with
  | ok a t => rw [bind_of_ok done, bind_of_ok (adaptExcept_eq_ok_iff.mpr done), EStateM.adaptExcept]
  | error e t =>
    rw [bind_of_error done, bind_of_error (adaptExcept_eq_error_iff.mpr ⟨e, done, rfl⟩)]

theorem adaptExcept_adaptExcept (f : ε' → ε'') (g : ε → ε') (x : EStateM ε σ α) :
    EStateM.adaptExcept f (EStateM.adaptExcept g x) = EStateM.adaptExcept (fun e => f (g e)) x := by
  funext s
  unfold EStateM.adaptExcept
  cases x s <;> rfl

variable (named : Encoding) {encoding : Encoding}

/-! The parts of a decoder name the encoding that they are given, and that is all they do with it. -/

theorem naming_scalarOr (e : DecodeError) (value : Nat) :
    EStateM.adaptExcept (DecodeError.naming named) (scalarOr e value : EStateM DecodeError σ Char) =
      scalarOr (e.naming named) value := by
  rw [scalarOr, scalarOr]
  cases Codespace.scalar? value <;> rfl

variable [ByteSource σ]

theorem naming_nextByte :
    EStateM.adaptExcept (DecodeError.naming named)
      (nextByte encoding : EStateM DecodeError σ UInt8) = nextByte named := by
  rw [nextByte, nextByte, adaptExcept_adaptExcept]
  congr 1
  funext e
  cases e <;> rfl

theorem naming_putBack (byte : UInt8) :
    EStateM.adaptExcept (DecodeError.naming named) (putBack byte : EStateM DecodeError σ Unit) =
      putBack byte := by
  rw [putBack, adaptExcept_adaptExcept]
  rfl

theorem Utf8.naming_continuations (start n value : Nat) :
    EStateM.adaptExcept (DecodeError.naming named)
      (continuations encoding start n value : EStateM DecodeError σ Nat) =
        continuations named start n value := by
  induction n generalizing value with
  | zero => rfl
  | succ n ih =>
    rw [continuations, continuations, adaptExcept_bind, naming_nextByte]
    congr 1
    funext byte
    split
    · exact ih _
    · rw [adaptExcept_bind, naming_putBack]
      rfl

theorem Utf8.naming_decode :
    EStateM.adaptExcept (DecodeError.naming named)
      (decode encoding : EStateM DecodeError σ Char) = decode named := by
  have here : EStateM.adaptExcept (DecodeError.naming named)
      (ByteSource.here : EStateM DecodeError σ Nat) = ByteSource.here := rfl
  rw [decode, decode, adaptExcept_bind, here]
  congr 1
  funext start
  rw [adaptExcept_bind, naming_nextByte]
  congr 1
  funext byte
  cases Lead.ofByte? byte with
  | none => rfl
  | some lead =>
    dsimp only
    rw [adaptExcept_bind, naming_continuations]
    congr 1
    funext value
    split
    · rfl
    · exact naming_scalarOr ..

/-- The same run in the two kinds. -/
theorem Decodes.optional {source rest : σ} {scalars : List Char} {fault : Option DecodeError}
    (run : Decodes .utf8 source scalars fault rest) :
    Decodes .utf8Bom source scalars (fault.map (DecodeError.naming .utf8Bom)) rest := by
  have decodes : (decodeScalar .utf8Bom : EStateM DecodeError σ Char) =
      EStateM.adaptExcept (DecodeError.naming .utf8Bom) (decodeScalar .utf8) :=
    (Utf8.naming_decode .utf8Bom).symm
  induction run with
  | finished ended => exact .finished ended
  | failed more refused =>
    exact .failed more (decodes ▸ adaptExcept_eq_error_iff.mpr ⟨_, refused, rfl⟩)
  | step more decoded run ih =>
    exact .step more (decodes ▸ adaptExcept_eq_ok_iff.mpr decoded) ih

end Runs

/-! ## Whole inputs -/

variable {bytes : List UInt8}

theorem afterMark_utf8 (bytes : List UInt8) : afterMark .utf8 bytes = .ok (MemorySource.ofBytes bytes) :=
  rfl

/-- The bytes of the mark are a scalar value to whoever does not look for it. -/
theorem Decodes.marked {rest : MemorySource} {scalars : List Char} {fault : Option DecodeError}
    (mark : Encoding.utf8Bom.mark <+: bytes)
    (run : Decodes .utf8 ((MemorySource.ofBytes bytes).skip Encoding.utf8Bom.mark.length) scalars fault
      rest) :
    Decodes .utf8 (MemorySource.ofBytes bytes) (Codespace.markScalar :: scalars) fault rest := by
  have free : (MemorySource.ofBytes bytes).pending = none := rfl
  have follows : (MemorySource.ofBytes bytes).rest ≠ [] := by
    rintro empty
    rw [show bytes = [] from empty] at mark
    exact absurd (List.prefix_nil.mp mark) (by decide)
  have decoded := (decodeScalar_eq_ok_iff free).mpr
    ⟨show encodeScalar .utf8 Codespace.markScalar <+: bytes from mark, rfl⟩
  exact .step ((MemorySource.hasNext_eq_more_iff free).mpr ⟨follows, rfl⟩) decoded run

/-- One run tells what both kinds make of an input. -/
theorem exists_run_of_both (bytes : List UInt8) :
    ∃ (scalars : List Char) (fault : Option DecodeError) (rest : MemorySource),
      Decodes .utf8 (MemorySource.ofBytes bytes) scalars fault rest ∧
      decode .utf8Bom bytes =
        verdict (fault.map (DecodeError.naming .utf8Bom))
          (if scalars.head? = some Codespace.markScalar then scalars.tail else scalars) := by
  have free : (MemorySource.ofBytes bytes).pending = none := rfl
  -- The run of the one kind is found behind the mark and carried back over it, for the other to begin there.
  by_cases mark : Encoding.utf8Bom.mark <+: bytes
  · have free' : ((MemorySource.ofBytes bytes).skip Encoding.utf8Bom.mark.length).pending = none := rfl
    obtain ⟨scalars, fault, rest, run⟩ := Decodes.exists_of_free .utf8 free'
    refine ⟨Codespace.markScalar :: scalars, fault, rest, run.marked mark, ?_⟩
    rw [List.head?_cons, if_pos rfl, List.tail_cons]
    exact decode_of_run (afterMark_eq_ok_iff.mpr (.inl ⟨mark, rfl⟩)) run.optional
  · obtain ⟨scalars, fault, rest, run⟩ := Decodes.exists_of_free .utf8 free
    refine ⟨scalars, fault, rest, run, ?_⟩
    have unmarked : scalars.head? ≠ some Codespace.markScalar := by
      intro first
      obtain ⟨others, rfl⟩ := List.head?_eq_some_iff.mp first
      obtain ⟨tail, content, -⟩ := run.rest_eq free
      change bytes = _ at content
      rw [List.flatMap_cons, List.append_assoc] at content
      exact mark (content ▸ List.prefix_append ..)
    rw [if_neg unmarked]
    exact decode_of_run (afterMark_eq_ok_iff.mpr (.inr ⟨rfl, mark, rfl⟩)) run.optional

theorem Blame.naming {named encoding : Encoding} {start finish : Nat} {e : DecodeError}
    (blame : Blame encoding start finish e) : Blame named start finish (e.naming named) := by
  cases blame with
  | truncated => exact .truncated
  | malformed => exact .malformed
  | loneSurrogate unit => exact .loneSurrogate unit

theorem decode_utf8Bom_eq (bytes : List UInt8) :
    decode .utf8Bom bytes =
      match decode .utf8 bytes with
      | .ok scalars =>
        .ok (if scalars.head? = some Codespace.markScalar then scalars.tail else scalars)
      | .error e => .error (e.naming .utf8Bom) := by
  obtain ⟨scalars, fault, rest, run, optional⟩ := exists_run_of_both bytes
  rw [optional, decode_of_run (afterMark_utf8 bytes) run]
  cases fault <;> rfl

theorem exists_decode_utf8Bom_iff (bytes : List UInt8) :
    (∃ scalars, decode .utf8Bom bytes = .ok scalars) ↔ ∃ scalars, decode .utf8 bytes = .ok scalars := by
  rw [decode_utf8Bom_eq]
  cases decode .utf8 bytes <;> simp

theorem exists_split_of_decode_utf8 {e : DecodeError} (refused : decode .utf8 bytes = .error e) :
    ∃ (scalars : List Char) (k : Nat), scalars.flatMap Utf8.encode = bytes.take k ∧ k < bytes.length ∧
      (∀ c, ¬ Utf8.encode c <+: bytes.drop k) ∧ Blame .utf8 k bytes.length e := by
  have free : (MemorySource.ofBytes bytes).pending = none := rfl
  obtain ⟨scalars, fault, rest, run⟩ := Decodes.exists_of_free .utf8 free
  rw [decode_of_run (afterMark_utf8 bytes) run] at refused
  cases fault with
  | none => cases refused
  | some fault =>
    obtain rfl := Except.error.inj refused
    exact ⟨scalars, run.exists_split_of_fault⟩

/-- With an optional mark, an input is what it is without one, but for a U+FEFF at the front, which is left
out, and for the encoding named in an error. So the two kinds of UTF-8 take the same inputs. Where they
refuse one, they find the same fault, behind the longest prefix that decodes or at the end, and both count
from the first byte of all. -/
theorem optional_mark_left_out (bytes : List UInt8) :
    (decode .utf8Bom bytes =
      match decode .utf8 bytes with
      | .ok scalars =>
        .ok (if scalars.head? = some Codespace.markScalar then scalars.tail else scalars)
      | .error e => .error (e.naming .utf8Bom)) ∧
    ((∃ scalars, decode .utf8Bom bytes = .ok scalars) ↔ ∃ scalars, decode .utf8 bytes = .ok scalars) ∧
    ∀ e, decode .utf8 bytes = .error e →
      decode .utf8Bom bytes = .error (e.naming .utf8Bom) ∧
      ∃ (scalars : List Char) (k : Nat), scalars.flatMap Utf8.encode = bytes.take k ∧ k < bytes.length ∧
        (∀ c, ¬ Utf8.encode c <+: bytes.drop k) ∧
        Blame .utf8 k bytes.length e ∧ Blame .utf8Bom k bytes.length (e.naming .utf8Bom) := by
  refine ⟨decode_utf8Bom_eq bytes, exists_decode_utf8Bom_iff bytes, fun e refused => ?_⟩
  obtain ⟨scalars, k, front, inside, stuck, blame⟩ := exists_split_of_decode_utf8 refused
  exact ⟨by rw [decode_utf8Bom_eq, refused], scalars, k, front, inside, stuck, blame, blame.naming⟩

/-- The mark and two letters, the second of them cut short: four bytes stand in front of the fault. -/
theorem optional_mark_left_out_cut_short :
    decode .utf8 [0xEF, 0xBB, 0xBF, 0x61, 0xC3, 0x28] = .error (.malformed .utf8 4) ∧
    decode .utf8Bom [0xEF, 0xBB, 0xBF, 0x61, 0xC3, 0x28] = .error (.malformed .utf8Bom 4) := by
  have refused : decode .utf8 [0xEF, 0xBB, 0xBF, 0x61, 0xC3, 0x28] = .error (.malformed .utf8 4) := rfl
  exact ⟨refused, ((optional_mark_left_out _).2.2 _ refused).1⟩

end Codec

end UnicodeInput
