import Mathlib.Data.List.Basic
import UnicodeInput.Codec.Decoder
import UnicodeInput.Proofs.Codec.Fault

/-! Runs of a decoder. `Decodes` is the run itself, whatever drives it: some scalar values, then the end
of the source or one fault. Every loop over a source (the decoder called again and again, the fold, the
copy into another encoding) does what the run says, so each is tied to it once. On bytes in memory there
is always a run, and it takes the longest prefix that encodes any scalar values. -/
namespace UnicodeInput.Codec

/-! ## Side by side -/

section SideBySide

variable {σ τ α β : Type}

/-- What two runs give, each on its own source: the same value, or errors that belong together. Either way
the sources that are left belong together. -/
inductive SideBySide (sources : σ → τ → Prop) (errors : DecodeError → DecodeError → Prop) :
    EStateM.Result DecodeError σ α → EStateM.Result DecodeError τ α → Prop
  | ok (a : α) {s : σ} {t : τ} : sources s t → SideBySide sources errors (.ok a s) (.ok a t)
  | error {e e' : DecodeError} {s : σ} {t : τ} : errors e e' → sources s t →
      SideBySide sources errors (.error e s) (.error e' t)

variable {sources : σ → τ → Prop} {errors : DecodeError → DecodeError → Prop} {s : σ} {t : τ}

theorem SideBySide.bind {x : EStateM DecodeError σ α} {y : EStateM DecodeError τ α}
    {f : α → EStateM DecodeError σ β} {g : α → EStateM DecodeError τ β}
    (first : SideBySide sources errors (x s) (y t))
    (next : ∀ a s' t', x s = .ok a s' → y t = .ok a t' → sources s' t' →
      SideBySide sources errors (f a s') (g a t')) :
    SideBySide sources errors ((x >>= f) s) ((y >>= g) t) := by
  generalize run : x s = result at first
  generalize run' : y t = result' at first
  cases first with
  | ok a both =>
    rw [bind_of_ok run, bind_of_ok run']
    exact next a _ _ run run' both
  | error same both =>
    rw [bind_of_error run, bind_of_error run']
    exact .error same both

theorem SideBySide.map (f : α → β) {x : EStateM DecodeError σ α} {y : EStateM DecodeError τ α}
    (first : SideBySide sources errors (x s) (y t)) :
    SideBySide sources errors ((f <$> x) s) ((f <$> y) t) := by
  rw [map_eq_pure_bind, map_eq_pure_bind]
  exact first.bind fun a _ _ _ _ both => .ok (f a) both

theorem sideBySide_scalarOr (both : sources s t) {e e' : DecodeError} (same : errors e e')
    (value : Nat) : SideBySide sources errors (scalarOr e value s) (scalarOr e' value t) := by
  unfold scalarOr
  cases Codespace.scalar? value with
  | some c => exact .ok c both
  | none => exact .error same both

end SideBySide

/-! ## Any source -/

section Runs

variable {σ : Type} [ByteSource σ] {encoding : Encoding}

/-- From a source on: the scalar values decoded, what stops them if it is not the end, and the source
that is left. -/
inductive Decodes (encoding : Encoding) : σ → List Char → Option DecodeError → σ → Prop
  | finished {source rest : σ} : ByteSource.hasNext source = (false, rest) →
      Decodes encoding source [] none rest
  | failed {source asked rest : σ} {e : DecodeError} : ByteSource.hasNext source = (true, asked) →
      decodeScalar encoding asked = .error e rest → Decodes encoding source [] (some e) rest
  | step {source asked next rest : σ} {c : Char} {scalars : List Char} {fault : Option DecodeError} :
      ByteSource.hasNext source = (true, asked) → decodeScalar encoding asked = .ok c next →
      Decodes encoding next scalars fault rest → Decodes encoding source (c :: scalars) fault rest

/-- What a run is worth: the value, unless there is a fault. -/
def verdict {α : Type} (fault : Option DecodeError) (value : α) : Except DecodeError α :=
  match fault with
  | none => .ok value
  | some e => .error e

theorem map_verdict {α γ : Type} (g : α → γ) (fault : Option DecodeError) (value : α) :
    g <$> verdict fault value = verdict fault (g value) := by
  cases fault <;> rfl

def leaving {ε α : Type} (rest : σ) : Except ε α → EStateM.Result ε σ α
  | .ok value => .ok value rest
  | .error e => .error e rest

def apart {ε α : Type} : EStateM.Result ε σ α → Except ε α × σ
  | .ok value rest => (.ok value, rest)
  | .error e rest => (.error e, rest)

omit [ByteSource σ] in
theorem leaving_apart {ε α : Type} (result : EStateM.Result ε σ α) :
    leaving (apart result).2 (apart result).1 = result := by
  cases result <;> rfl

namespace Decoder

/-- The answer to the call after `n` others. -/
def call : (n : Nat) → Decoder σ → Option Item
  | 0, decoder => decoder.next.1
  | n + 1, decoder => decoder.next.2.call n

def after : (n : Nat) → Decoder σ → Decoder σ
  | 0, decoder => decoder
  | n + 1, decoder => decoder.next.2.after n

/-- One call after the other gives these scalar values, then the fault if there is one, and from then
on nothing, for ever. -/
def Yields (decoder : Decoder σ) (scalars : List Char) (fault : Option DecodeError) : Prop :=
  ∀ n, decoder.call n = (scalars.map .ok ++ fault.toList.map .error)[n]?

/-- The calls tell the scalar values and the fault apart. -/
theorem Yields.unique {decoder : Decoder σ} {scalars others : List Char}
    {fault other : Option DecodeError} (yields : decoder.Yields scalars fault)
    (again : decoder.Yields others other) : others = scalars ∧ other = fault := by
  have items : others.map Except.ok ++ other.toList.map .error =
      scalars.map .ok ++ fault.toList.map .error :=
    List.ext_getElem? fun n => (again n).symm.trans (yields n)
  obtain rfl : others = scalars := by
    simpa [List.filterMap_map, Function.comp_def, Except.toOption] using
      congrArg (List.filterMap Except.toOption) items
  have faults := List.append_cancel_left items
  cases fault <;> cases other <;> simp_all

/-- Once a call gives nothing and changes nothing, no later call gives anything. -/
theorem call_of_next_eq {decoder : Decoder σ} (stays : decoder.next = (none, decoder)) (n : Nat) :
    decoder.call n = none := by
  induction n with
  | zero => rw [call, stays]
  | succ n ih => rw [call, stays, ih]

theorem after_of_next_eq {decoder : Decoder σ} {item : Option Item}
    (stays : decoder.next = (item, decoder)) (n : Nat) : decoder.after n = decoder := by
  induction n with
  | zero => rfl
  | succ n ih => rw [after, stays, ih]

section Next

variable {encoding : Encoding} {source asked rest : σ}

theorem next_of_end (ended : ByteSource.hasNext source = (false, rest)) :
    next { source, encoding } = (none, { source := rest, encoding }) := by
  simp [next, ended]

theorem next_of_ok {c : Char} (more : ByteSource.hasNext source = (true, asked))
    (decoded : decodeScalar encoding asked = .ok c rest) :
    next { source, encoding } = (some (.ok c), { source := rest, encoding }) := by
  simp [next, more, decoded]

theorem next_of_error {e : DecodeError} (more : ByteSource.hasNext source = (true, asked))
    (refused : decodeScalar encoding asked = .error e rest) :
    next { source, encoding } =
      (some (.error e), { source := rest, encoding, failed := true }) := by
  simp [next, more, refused]

end Next

theorem next_of_failed {decoder : Decoder σ} (failed : decoder.failed = true) :
    decoder.next = (none, decoder) := by
  rw [next, if_pos failed]

theorem failed_of_next_error {decoder : Decoder σ} {e : DecodeError}
    (given : decoder.next.1 = some (.error e)) : decoder.next.2.failed = true := by
  cases failed : decoder.failed with
  | true => simp [next, failed] at given
  | false =>
    rcases asked : ByteSource.hasNext decoder.source with ⟨_ | _, source⟩
    · simp [next, failed, asked] at given
    · cases decoded : decodeScalar decoder.encoding source with
      | ok c rest => simp [next, failed, asked, decoded] at given
      | error e' rest => simp [next, failed, asked, decoded]

/-- After an error no call changes anything. -/
theorem after_of_call_error {n : Nat} {decoder : Decoder σ} {e : DecodeError}
    (given : decoder.call n = some (.error e)) (more : Nat) :
    decoder.after (n + 1 + more) = decoder.after (n + 1) := by
  induction n generalizing decoder with
  | zero =>
    have stays := next_of_failed (failed_of_next_error given)
    rw [Nat.zero_add, Nat.add_comm, after, after_of_next_eq stays]
    rfl
  | succ n ih =>
    rw [Nat.add_right_comm]
    exact ih given

end Decoder

namespace Decodes

variable {source rest : σ} {scalars : List Char} {fault : Option DecodeError}

theorem yields (run : Decodes encoding source scalars fault rest)
    (spent : fault = none → ByteSource.hasNext rest = (false, rest)) :
    Decoder.Yields { source, encoding } scalars fault := by
  intro n
  induction run generalizing n with
  | @finished source rest empty =>
    have stays : Decoder.next { source := rest, encoding } = _ := Decoder.next_of_end (spent rfl)
    cases n with
    | zero => simp [Decoder.call, Decoder.next_of_end empty]
    | succ n => simp [Decoder.call, Decoder.next_of_end empty, Decoder.call_of_next_eq stays]
  | failed more refused =>
    cases n with
    | zero => simp [Decoder.call, Decoder.next_of_error more refused]
    | succ n =>
      rw [Decoder.call, Decoder.next_of_error more refused]
      exact Decoder.call_of_next_eq rfl n
  | step more decoded run ih =>
    cases n with
    | zero => simp [Decoder.call, Decoder.next_of_ok more decoded]
    | succ n => simpa [Decoder.call, Decoder.next_of_ok more decoded] using ih spent n

theorem foldUpTo_eq {β : Type} {f : β → Char → β} (run : Decodes encoding source scalars fault rest)
    {n : Nat} (enough : scalars.length < n) (acc : β) :
    Decoder.foldUpTo f n acc { source, encoding } =
      leaving { source := rest, encoding, failed := fault.isSome }
        (verdict fault (scalars.foldl f acc)) := by
  induction n generalizing source scalars acc with
  | zero => exact absurd enough (Nat.not_lt_zero _)
  | succ n ih =>
    cases run with
    | finished empty => simp [Decoder.foldUpTo, Decoder.next_of_end empty, leaving, verdict]
    | failed more refused =>
      simp [Decoder.foldUpTo, Decoder.next_of_error more refused, leaving, verdict]
    | step more decoded run =>
      rw [Decoder.foldUpTo, Decoder.next_of_ok more decoded]
      exact ih run (Nat.lt_of_succ_lt_succ enough) _

theorem foldScalars_eq {β : Type} {f : β → Char → β} (run : Decodes encoding source scalars fault rest)
    (bound : scalars.length ≤ ByteSource.deliverable source) (acc : β) :
    foldScalars encoding f acc source = leaving rest (verdict fault (scalars.foldl f acc)) := by
  have loop := run.foldUpTo_eq (f := f) (Nat.lt_add_one_of_le bound) acc
  simp only [foldScalars, Decoder.steps, loop]
  cases fault <;> rfl

end Decodes

end Runs

/-! ## Bytes in memory -/

variable {encoding : Encoding} {source rest : MemorySource} {scalars : List Char}
  {fault : Option DecodeError}

/-- Why decoding stops in front of `tail`, which is from `start` to `finish`. -/
def Stops (encoding : Encoding) (tail : List UInt8) (start finish : Nat) : Option DecodeError → Prop
  | none => tail = []
  | some e => tail ≠ [] ∧ (∀ c, ¬ encodeScalar encoding c <+: tail) ∧ Blame encoding start finish e

namespace Decodes

theorem exists_of_free (encoding : Encoding) (free : source.pending = none) :
    ∃ scalars fault rest, Decodes encoding source scalars fault rest := by
  -- The induction is on the number of bytes left, and each scalar value takes some.
  induction left : source.rest.length using Nat.strongRecOn generalizing source with
  | ind left ih =>
    subst left
    by_cases empty : source.rest = []
    · exact ⟨_, _, _, .finished ((MemorySource.hasNext_eq_end_iff free).mpr ⟨empty, rfl⟩)⟩
    · have more := (MemorySource.hasNext_eq_more_iff free).mpr ⟨empty, rfl⟩
      cases decoded : decodeScalar encoding source with
      | error e after => exact ⟨_, _, _, .failed more decoded⟩
      | ok c after =>
        obtain ⟨free', split, -⟩ := rest_of_decodeScalar free decoded
        have taken := List.length_pos_iff.mpr (encodeScalar_ne_nil encoding c)
        have total := congrArg List.length split
        rw [List.length_append] at total
        obtain ⟨scalars, fault, rest, run⟩ := ih _ (by omega) free' rfl
        exact ⟨_, _, _, .step more decoded run⟩

/-- The bytes that encode some scalar values decode to these. -/
theorem of_flatMap (free : source.pending = none)
    (content : source.rest = scalars.flatMap (encodeScalar encoding)) :
    ∃ rest, Decodes encoding source scalars none rest := by
  induction scalars generalizing source with
  | nil => exact ⟨source, .finished ((MemorySource.hasNext_eq_end_iff free).mpr ⟨content, rfl⟩)⟩
  | cons c scalars ih =>
    rw [List.flatMap_cons] at content
    have decoded := (decodeScalar_eq_ok_iff free).mpr ⟨content ▸ List.prefix_append .., rfl⟩
    have follows : source.rest ≠ [] := by
      rw [content]
      exact List.append_ne_nil_of_left_ne_nil (encodeScalar_ne_nil encoding c) _
    have more := (MemorySource.hasNext_eq_more_iff free).mpr ⟨follows, rfl⟩
    obtain ⟨free', split, -⟩ := rest_of_decodeScalar free decoded
    obtain ⟨rest, run⟩ := ih free' (List.append_cancel_left (split.symm.trans content))
    exact ⟨rest, .step more decoded run⟩

theorem spent (run : Decodes encoding source scalars fault rest) (free : source.pending = none)
    (clean : fault = none) : ByteSource.hasNext rest = (false, rest) := by
  induction run with
  | finished empty =>
    obtain ⟨ended, rfl⟩ := (MemorySource.hasNext_eq_end_iff free).mp empty
    exact empty
  | failed more refused => cases clean
  | step more decoded run ih =>
    obtain ⟨-, rfl⟩ := (MemorySource.hasNext_eq_more_iff free).mp more
    exact ih (rest_of_decodeScalar free decoded).1 clean

/-- A run takes what it decodes, and stops where there is nothing left to decode. -/
theorem rest_eq (run : Decodes encoding source scalars fault rest) (free : source.pending = none) :
    ∃ tail, source.rest = scalars.flatMap (encodeScalar encoding) ++ tail ∧
      Stops encoding tail
        (source.offset + (scalars.flatMap (encodeScalar encoding)).length) source.finish fault := by
  induction run with
  | finished empty =>
    obtain ⟨ended, rfl⟩ := (MemorySource.hasNext_eq_end_iff free).mp empty
    exact ⟨[], ended, rfl⟩
  | @failed _ asked rest e more refused =>
    obtain ⟨follows, rfl⟩ := (MemorySource.hasNext_eq_more_iff free).mp more
    exact ⟨asked.rest, rfl, follows, not_prefix_of_decodeScalar free refused,
      blame_of_decodeScalar free refused⟩
  | @step _ asked next rest c scalars fault more decoded run ih =>
    obtain ⟨-, rfl⟩ := (MemorySource.hasNext_eq_more_iff free).mp more
    obtain ⟨free', split, behind⟩ := rest_of_decodeScalar free decoded
    obtain ⟨tail, content, stops⟩ := ih free'
    have finish : next.finish = asked.finish := by
      rw [MemorySource.finish, MemorySource.finish, split, behind, List.length_append, Nat.add_assoc]
    refine ⟨tail, by rw [split, content, List.flatMap_cons, List.append_assoc], ?_⟩
    rwa [finish, behind, Nat.add_assoc, ← List.length_append, ← List.flatMap_cons] at stops

/-- Where a run over whole input is stopped, the fault is that of the bytes behind what it decoded. -/
theorem exists_split_of_fault {bytes : List UInt8} {e : DecodeError}
    (run : Decodes encoding (MemorySource.ofBytes bytes) scalars (some e) rest) :
    ∃ k, scalars.flatMap (encodeScalar encoding) = bytes.take k ∧ k < bytes.length ∧
      (∀ c, ¬ encodeScalar encoding c <+: bytes.drop k) ∧ Blame encoding k bytes.length e := by
  obtain ⟨tail, content, more, stuck, blame⟩ := run.rest_eq rfl
  change bytes = _ at content
  change Blame encoding (0 + _) (0 + bytes.length) e at blame
  rw [Nat.zero_add, Nat.zero_add] at blame
  refine ⟨(scalars.flatMap (encodeScalar encoding)).length, ?_, ?_, ?_, blame⟩
  · rw [content, List.take_left]
  · rw [content, List.length_append]
    exact Nat.lt_add_of_pos_right (List.length_pos_iff.mpr more)
  · rwa [content, List.drop_left]

theorem length_le (run : Decodes encoding source scalars fault rest) (free : source.pending = none) :
    scalars.length ≤ source.rest.length := by
  obtain ⟨tail, content, -⟩ := run.rest_eq free
  rw [content, List.length_append]
  exact Nat.le_add_right_of_le (length_le_length_flatMap encoding scalars)

theorem foldScalars_of_free {β : Type} {f : β → Char → β}
    (run : Decodes encoding source scalars fault rest) (free : source.pending = none) (acc : β) :
    foldScalars encoding f acc source = leaving rest (verdict fault (scalars.foldl f acc)) :=
  run.foldScalars_eq (Nat.le_add_left_of_le (run.length_le free)) acc

end Decodes

theorem Stops.not_prefix {tail : List UInt8} {start finish : Nat}
    (stops : Stops encoding tail start finish fault) (c : Char) : ¬ encodeScalar encoding c <+: tail := by
  cases fault with
  | none =>
    obtain rfl : tail = [] := stops
    rw [List.prefix_nil]
    exact encodeScalar_ne_nil encoding c
  | some e => exact stops.2.1 c

/-- Where nothing can be decoded behind some scalar values, no others reach as far. -/
theorem prefix_of_flatMap_prefix {tail : List UInt8} (stuck : ∀ c, ¬ encodeScalar encoding c <+: tail)
    {others : List Char} (within : others.flatMap (encodeScalar encoding) <+:
      scalars.flatMap (encodeScalar encoding) ++ tail) : others <+: scalars := by
  induction scalars generalizing others with
  | nil =>
    cases others with
    | nil => exact List.nil_prefix
    | cons d others => exact absurd ((List.prefix_append ..).trans within) (stuck d)
  | cons c scalars ih =>
    cases others with
    | nil => exact List.nil_prefix
    | cons d others =>
      rw [List.flatMap_cons, List.flatMap_cons, List.append_assoc] at within
      obtain rfl : d = c :=
        eq_of_encodeScalar_prefix ((List.prefix_append ..).trans within) (List.prefix_append ..)
      rw [List.prefix_append_right_inj] at within
      exact List.cons_prefix_cons.mpr ⟨rfl, ih within⟩

/-- A decoder gives the scalar values of the longest prefix that encodes any, then an error unless that
prefix is everything, and then nothing. -/
theorem decoder_yields_longest_prefix (encoding : Encoding) (bytes : List UInt8) :
    ∃ (scalars : List Char) (k : Nat) (fault : Option DecodeError),
      Decoder.Yields { source := MemorySource.ofBytes bytes, encoding } scalars fault ∧
      k ≤ bytes.length ∧ scalars.flatMap (encodeScalar encoding) = bytes.take k ∧
      (∀ others : List Char, others.flatMap (encodeScalar encoding) <+: bytes → others <+: scalars) ∧
      match fault with
      | none => k = bytes.length
      | some e => k < bytes.length ∧ (∀ c, ¬ encodeScalar encoding c <+: bytes.drop k) ∧
          Blame encoding k bytes.length e := by
  have free : (MemorySource.ofBytes bytes).pending = none := rfl
  obtain ⟨scalars, fault, rest, run⟩ := Decodes.exists_of_free encoding free
  obtain ⟨tail, content, stops⟩ := run.rest_eq free
  change bytes = _ at content
  change Stops encoding tail (0 + _) (0 + bytes.length) fault at stops
  rw [Nat.zero_add, Nat.zero_add] at stops
  refine ⟨scalars, (scalars.flatMap (encodeScalar encoding)).length, fault, run.yields (run.spent free),
    ?_, ?_, ?_, ?_⟩
  · rw [content, List.length_append]
    exact Nat.le_add_right _ _
  · rw [content, List.take_left]
  · intro others within
    rw [content] at within
    exact prefix_of_flatMap_prefix stops.not_prefix within
  · cases fault with
    | none =>
      obtain rfl : tail = [] := stops
      rw [content, List.append_nil]
    | some e =>
      obtain ⟨more, stuck, blame⟩ := stops
      have follows := List.length_pos_iff.mpr more
      refine ⟨?_, ?_, blame⟩
      · rw [content, List.length_append]
        omega
      · rwa [content, List.drop_left]

-- A continuation byte that continues nothing is where the run ends, for all calls to come.
example : (List.range 4).map (fun n => Decoder.call n
    { source := MemorySource.ofBytes [0x61, 0x80, 0x62], encoding := .utf8 }) =
    [some (.ok 'a'), some (.error (.malformed .utf8 1)), none, none] := by decide

end UnicodeInput.Codec
