import UnicodeInput.Proofs.Codec.Scalar

/-! What is wrong where decoding fails. On bytes in memory a decoder has three faults to report, and
each names one of two places: the start of the sequence that stands for nothing, or the end of the
input that cuts a sequence short. Where a reader stopped is never reported. -/
namespace UnicodeInput.Codec

/-- The faults of a sequence that begins at `start`, in input that ends at `finish`. -/
inductive Blame (encoding : Encoding) (start finish : Nat) : DecodeError → Prop
  | truncated : Blame encoding start finish (.truncated encoding finish)
  | malformed : Blame encoding start finish (.malformed encoding start)
  | loneSurrogate (unit : Nat) : Blame encoding start finish (.loneSurrogate encoding start unit)

variable {source after : MemorySource} {e : DecodeError}

theorem more_ne_error :
    ¬ (ByteSource.more : EStateM DecodeError MemorySource Bool) source = .error e after := by
  intro given
  cases given

namespace Utf8

variable {encoding : Encoding}

theorem blame_of_continuations (free : source.pending = none) {start n value : Nat}
    (run : continuations encoding start n value source = .error e after) :
    Blame encoding start source.finish e := by
  induction n generalizing source value with
  | zero => exact absurd run pure_ne_error
  | succ n ih =>
    have free' : (source.skip 1).pending = none := free
    rw [continuations] at run
    rcases bind_eq_error_iff.mp run with run | ⟨byte, _, read, run⟩
    · obtain ⟨-, rfl, -⟩ := (nextByte_eq_error_iff free).mp run
      exact .truncated
    obtain ⟨front, rfl⟩ := (nextByte_eq_ok_iff free).mp read
    split at run
    · rw [← MemorySource.finish_skip front.length_le]
      exact ih free' run
    · rcases bind_eq_error_iff.mp run with run | ⟨_, _, -, run⟩
      · exact absurd run (putBack_ne_error free')
      · obtain ⟨rfl, -⟩ := throw_eq_error_iff.mp run
        exact .malformed

theorem blame_of_decode (free : source.pending = none)
    (run : decode encoding source = .error e after) :
    Blame encoding source.offset source.finish e := by
  have free' : (source.skip 1).pending = none := free
  rw [decode, here_bind_of_free free] at run
  rcases bind_eq_error_iff.mp run with run | ⟨first, _, read, run⟩
  · obtain ⟨-, rfl, -⟩ := (nextByte_eq_error_iff free).mp run
    exact .truncated
  obtain ⟨front, rfl⟩ := (nextByte_eq_ok_iff free).mp read
  cases announced : Lead.ofByte? first with
  | none =>
    rw [announced] at run
    obtain ⟨rfl, -⟩ := throw_eq_error_iff.mp run
    exact .malformed
  | some lead =>
    rw [announced] at run
    rcases bind_eq_error_iff.mp run with run | ⟨value, _, -, run⟩
    · rw [← MemorySource.finish_skip front.length_le]
      exact blame_of_continuations free' run
    split at run
    · obtain ⟨rfl, -⟩ := throw_eq_error_iff.mp run
      exact .malformed
    · obtain ⟨-, rfl, -⟩ := scalarOr_eq_error_iff.mp run
      exact .malformed

end Utf8

namespace Utf16

variable {order : ByteOrder}

theorem truncated_of_nextUnit (free : source.pending = none)
    (run : nextUnit order source = .error e after) :
    e = .truncated (.utf16 order) source.finish :=
  ((nextBytes_eq_error_iff free).mp (map_eq_error_iff.mp run)).2.1

theorem blame_of_decode (free : source.pending = none)
    (run : decode order source = .error e after) :
    Blame (.utf16 order) source.offset source.finish e := by
  have free' : (source.skip 2).pending = none := free
  rw [decode, here_bind_of_free free] at run
  rcases bind_eq_error_iff.mp run with run | ⟨unit, _, read, run⟩
  · obtain rfl := truncated_of_nextUnit free run
    exact .truncated
  obtain ⟨front, -, rfl⟩ := (nextUnit_eq_ok_iff free).mp read
  have taken : 2 ≤ source.rest.length := by simpa using front.length_le
  by_cases high : Codespace.isHighSurrogate unit = true
  · rw [if_pos high] at run
    -- The second half of a pair can be missing, cut short or no second half.
    rcases bind_eq_error_iff.mp run with run | ⟨answer, _, asked, run⟩
    · exact absurd run more_ne_error
    obtain ⟨-, rfl⟩ := more_eq_ok_iff.mp asked
    split at run
    · rcases bind_eq_error_iff.mp run with run | ⟨low, _, -, run⟩
      · obtain rfl := truncated_of_nextUnit free' run
        rw [MemorySource.finish_skip taken]
        exact .truncated
      split at run
      · obtain ⟨-, rfl, -⟩ := scalarOr_eq_error_iff.mp run
        exact .loneSurrogate unit
      · obtain ⟨rfl, -⟩ := throw_eq_error_iff.mp run
        exact .loneSurrogate unit
    · obtain ⟨rfl, -⟩ := throw_eq_error_iff.mp run
      exact .loneSurrogate unit
  · rw [if_neg high] at run
    split at run
    · obtain ⟨rfl, -⟩ := throw_eq_error_iff.mp run
      exact .loneSurrogate unit
    · obtain ⟨-, rfl, -⟩ := scalarOr_eq_error_iff.mp run
      exact .malformed

end Utf16

namespace Utf32

variable {order : ByteOrder}

theorem blame_of_decode (free : source.pending = none)
    (run : decode order source = .error e after) :
    Blame (.utf32 order) source.offset source.finish e := by
  rw [decode, here_bind_of_free free] at run
  rcases bind_eq_error_iff.mp run with run | ⟨value, _, -, run⟩
  · obtain ⟨-, rfl, -⟩ := (nextBytes_eq_error_iff free).mp (map_eq_error_iff.mp run)
    exact .truncated
  split at run
  · obtain ⟨rfl, -⟩ := throw_eq_error_iff.mp run
    exact .loneSurrogate value
  · obtain ⟨-, rfl, -⟩ := scalarOr_eq_error_iff.mp run
    exact .malformed

end Utf32

/-! ## Any encoding -/

variable {encoding : Encoding}

theorem blame_of_decodeScalar (free : source.pending = none)
    (run : decodeScalar encoding source = .error e after) :
    Blame encoding source.offset source.finish e := by
  cases encoding with
  | utf8 | utf8Bom => exact Utf8.blame_of_decode free run
  | utf16 order => exact Utf16.blame_of_decode free run
  | utf32 order => exact Utf32.blame_of_decode free run

/-- A failure is never for want of trying: no scalar value is encoded there. -/
theorem not_prefix_of_decodeScalar (free : source.pending = none)
    (run : decodeScalar encoding source = .error e after) (c : Char) :
    ¬ encodeScalar encoding c <+: source.rest := by
  intro whole
  rw [(decodeScalar_eq_ok_iff free).mpr ⟨whole, rfl⟩] at run
  cases run

end UnicodeInput.Codec
