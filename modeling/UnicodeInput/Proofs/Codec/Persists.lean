import UnicodeInput.Proofs.Codec.Ending
import UnicodeInput.Proofs.Codec.Run

/-! Decoding that goes on after errors. `Persists` is the run of a caller who asks for a scalar value as
long as the source has more, whatever the calls give. There is one such run at most. A byte that a decoder
gives back is the next one of the source again, so a run goes on behind it as if it had not been taken. -/
namespace UnicodeInput.Codec

section Runs

variable {σ : Type} [ByteSource σ] {encoding : Encoding}

/-- From a source on: what each call gives, a scalar value or an error, and the source that is left. -/
inductive Persists (encoding : Encoding) : σ → List Item → σ → Prop
  | finished {source rest : σ} : ByteSource.hasNext source = (false, rest) →
      Persists encoding source [] rest
  | call {source asked next rest : σ} {item : Item} {items : List Item} :
      ByteSource.hasNext source = (true, asked) → decodeScalar encoding asked = leaving next item →
      Persists encoding next items rest → Persists encoding source (item :: items) rest

theorem leaving_inj {τ ε α : Type} {s t : τ} {item other : Except ε α} :
    leaving s item = leaving t other ↔ s = t ∧ item = other := by
  cases item <;> cases other <;> simp [leaving, and_comm]

namespace Persists

variable {source rest rest' : σ} {items items' : List Item}

/-- A source has one run at most, since no call has a choice. -/
theorem unique (run : Persists encoding source items rest)
    (other : Persists encoding source items' rest') : items = items' ∧ rest = rest' := by
  induction run generalizing items' with
  | finished ended =>
    cases other with
    | finished ended' =>
      rw [ended] at ended'
      exact ⟨rfl, (Prod.mk.inj ended').2⟩
    | call more made run =>
      rw [ended] at more
      cases more
  | call more made run ih =>
    cases other with
    | finished ended =>
      rw [more] at ended
      cases ended
    | call more' made' run' =>
      rw [more] at more'
      obtain ⟨-, rfl⟩ := Prod.mk.inj more'
      obtain ⟨rfl, rfl⟩ := leaving_inj.mp (made.symm.trans made')
      obtain ⟨rfl, rfl⟩ := ih run'
      exact ⟨rfl, rfl⟩

end Persists

/-- Where nothing is refused, all calls give scalar values. -/
theorem Decodes.persists {source rest : σ} {scalars : List Char}
    (run : Decodes encoding source scalars none rest) :
    Persists encoding source (scalars.map .ok) rest := by
  generalize clean : none = fault at run
  induction run with
  | finished ended => exact .finished ended
  | failed more refused => cases clean
  | step more decoded run ih => exact .call more decoded (ih clean)

end Runs

/-! ## A byte held -/

variable {source : MemorySource} {encoding : Encoding}

theorem nextByte_fetched (encoding : Encoding) (source : MemorySource) :
    nextByte encoding source.fetched = nextByte encoding source := by
  have reads : ByteSource.read source.fetched = ByteSource.read source := source.read_fetched
  rw [nextByte, EStateM.adaptExcept, EStateM.adaptExcept, reads]

theorem bind_fetched {ε α β : Type} {x : EStateM ε MemorySource α}
    (same : x source.fetched = x source) (f : α → EStateM ε MemorySource β) :
    (x >>= f) source.fetched = (x >>= f) source := by
  change EStateM.bind x f source.fetched = EStateM.bind x f source
  rw [EStateM.bind, EStateM.bind, same]

theorem here_bind_fetched {ε α : Type} {f : Nat → EStateM ε MemorySource α}
    (same : f source.position source.fetched = f source.position source) :
    (ByteSource.here >>= f) source.fetched = (ByteSource.here >>= f) source := by
  change f source.fetched.position source.fetched = f source.position source
  rw [source.position_fetched, same]

theorem nextBytes_fetched (encoding : Encoding) (n : Nat) (source : MemorySource) :
    nextBytes encoding (n + 1) source.fetched = nextBytes encoding (n + 1) source :=
  bind_fetched (nextByte_fetched encoding source) _

theorem join_fetched (encoding : Encoding) (order : ByteOrder) (n : Nat) (source : MemorySource) :
    (order.join <$> nextBytes encoding (n + 1)) source.fetched =
      (order.join <$> nextBytes encoding (n + 1)) source := by
  rw [map_eq_pure_bind]
  exact bind_fetched (nextBytes_fetched encoding n source) _

/-- A decoder reads first, and then a byte that was held is as if it had not been. -/
theorem decodeScalar_fetched (encoding : Encoding) (source : MemorySource) :
    decodeScalar encoding source.fetched = decodeScalar encoding source := by
  cases encoding with
  | utf8 | utf8Bom => exact here_bind_fetched (bind_fetched (nextByte_fetched _ source) _)
  | utf16 order => exact here_bind_fetched (bind_fetched (join_fetched _ order 1 source) _)
  | utf32 order => exact here_bind_fetched (bind_fetched (join_fetched _ order 3 source) _)

theorem Persists.fetched {rest : MemorySource} {items : List Item}
    (run : Persists encoding source items rest) : Persists encoding source.fetched items rest := by
  have asks : ByteSource.hasNext source = (source.hasNext, source) := rfl
  have asks' : ByteSource.hasNext source.fetched = (source.hasNext, source.fetched) :=
    congrArg (·, source.fetched) source.hasNext_fetched
  cases run with
  | finished ended =>
    rw [asks, Prod.mk.injEq] at ended
    obtain ⟨ended, rfl⟩ := ended
    have empty : source.rest = [] := by
      rw [MemorySource.hasNext, Bool.or_eq_false_iff] at ended
      simpa using ended.2
    rw [source.fetched_of_nil empty]
    exact .finished (congrArg (·, source) ended)
  | call more made run =>
    rw [asks, Prod.mk.injEq] at more
    obtain ⟨more, rfl⟩ := more
    exact .call (asks'.trans (congrArg (·, source.fetched) more))
      ((decodeScalar_fetched encoding source).trans made) run

/-- A source that is left as `plain` is, or with the next byte of that held. -/
def Leaves (left plain : MemorySource) : Prop := left = plain ∨ left = plain.fetched

theorem Leaves.persists {left plain rest : MemorySource} {items : List Item}
    (leaves : Leaves left plain) (run : Persists encoding plain items rest) :
    Persists encoding left items rest := by
  rcases leaves with rfl | rfl
  · exact run
  · exact run.fetched

/-- A call where there is a byte to read. -/
theorem Persists.call_of_cons (free : source.pending = none) {left plain rest : MemorySource}
    {item : Item} {items : List Item} (follows : source.rest ≠ [])
    (made : decodeScalar encoding source = leaving left item) (leaves : Leaves left plain)
    (run : Persists encoding plain items rest) : Persists encoding source (item :: items) rest :=
  .call ((MemorySource.hasNext_eq_more_iff free).mpr ⟨follows, rfl⟩) made (leaves.persists run)

theorem Persists.of_flatMap (free : source.pending = none) {scalars : List Char}
    (content : source.rest = scalars.flatMap (encodeScalar encoding)) :
    ∃ rest, Persists encoding source (scalars.map .ok) rest := by
  obtain ⟨rest, run⟩ := Decodes.of_flatMap free content
  exact ⟨rest, run.persists⟩

end UnicodeInput.Codec
