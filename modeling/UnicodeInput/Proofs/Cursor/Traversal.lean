import UnicodeInput.Proofs.Codec.Bytes
import UnicodeInput.Proofs.Cursor.Bounds

/-! Reading on and going back. What is peeked at is what is read next, and each of reading and unreading
undoes the other. A cursor that is asked for scalar values gives those ahead of it, each once and in
order. The call that finds the end of the stream still moves onto it, and no call moves any further. On the
end a call gives nothing, once it has drawn the snippet there; if that takes a sum which is no word, a
program that stops there never gives the answer. -/
namespace UnicodeInput

/-! ## The content by positions -/

namespace Document

variable (document : Document)

theorem endPosition_eq : document.endPosition = document.content.length + 1 := by
  rw [content, List.length_map, Array.length_toList, endPosition]

/-- Positions are counted from one, and the scalar values of a text from zero. -/
theorem scalar?_symbol_succ (i : Nat) : (document.symbol (i + 1)).scalar? = document.content[i]? := by
  rw [content, List.getElem?_map, Array.getElem?_toList, symbol]
  cases document.cells[i]? <;> rfl

theorem getElem?_content_eq_some_iff {i : Nat} {c : Char} :
    document.content[i]? = some c ↔ document.symbolAt (i + 1) = .ok (.scalar c) := by
  have symbol_iff : (document.symbol (i + 1)).scalar? = some c ↔ document.symbol (i + 1) = .scalar c := by
    cases document.symbol (i + 1) <;> simp [Symbol.scalar?]
  rw [← scalar?_symbol_succ, symbol_iff]
  by_cases within : i + 1 ≤ document.endPosition
  · rw [symbolAt, checked_of_le _ _ within, Except.ok.injEq]
  · have absent : document.content[i]? = none := by
      rw [endPosition_eq] at within
      exact List.getElem?_eq_none (by omega)
    rw [symbolAt, checked_of_lt _ _ (Nat.lt_of_not_le within), ← symbol_iff, scalar?_symbol_succ, absent]
    constructor <;> intro given <;> cases given

end Document

namespace Cursor

variable {overflow : Overflow} {home : Document} {cursor after : Cursor}

/-! ## One symbol -/

theorem peek_eq_read (overflow : Overflow) (cursor : Cursor) :
    move overflow .peek cursor = ((move overflow .read cursor).1, cursor) := by
  rw [move, move, replyWith, replyWith]
  by_cases more : cursor.position < cursor.document.endPosition
  · rw [peek_eq_ok_iff.mpr ⟨more, rfl, rfl⟩, read_eq_ok_iff.mpr ⟨more, rfl, rfl⟩]
  · have atEnd := Nat.le_of_not_lt more
    rw [peek_eq_error_iff.mpr ⟨atEnd, rfl, rfl⟩, read_eq_error_iff.mpr ⟨atEnd, rfl, rfl⟩]

theorem unread_of_read {symbol : Symbol} (done : read overflow cursor = .ok symbol after) :
    unread overflow after = .ok () cursor := by
  obtain ⟨-, -, rfl⟩ := read_eq_ok_iff.mp done
  exact unread_eq_ok_iff.mpr ⟨Nat.succ_ne_zero _, rfl⟩

theorem Inside.read_of_unread (inside : Inside home cursor)
    (done : unread overflow cursor = .ok () after) :
    ∃ symbol, home.symbolAt cursor.position = .ok symbol ∧
      read overflow after = .ok symbol cursor := by
  obtain ⟨document, position, marks⟩ := cursor
  obtain rfl : document = home := inside.document
  obtain ⟨moved, rfl⟩ := unread_eq_ok_iff.mp done
  obtain ⟨position, rfl⟩ := Nat.exists_eq_succ_of_ne_zero moved
  refine ⟨document.symbol (position + 1), Document.checked_of_le _ _ inside.position, ?_⟩
  exact read_eq_ok_iff.mpr ⟨inside.position, rfl, rfl⟩

/-! ## All scalar values ahead -/

/-- A call gives the scalar value ahead, if there is one, and moves on unless the cursor is at the end. There
it needs the snippet to be drawn. -/
theorem Inside.next?_eq (inside : Inside home cursor)
    (answered : cursor.position < home.endPosition ∨ home.Drawable overflow home.endPosition) :
    next? overflow cursor = .ok home.content[cursor.position]?
      { cursor with position := min (cursor.position + 1) home.endPosition } := by
  obtain ⟨document, position, marks⟩ := cursor
  obtain rfl : document = home := inside.document
  by_cases more : position < document.endPosition
  · rw [next?, read_eq_ok_iff.mpr ⟨more, rfl, rfl⟩, Nat.min_eq_left more]
    exact congrArg (EStateM.Result.ok · _) (document.scalar?_symbol_succ position)
  · have atEnd : document.endPosition ≤ position := Nat.le_of_not_lt more
    have reached : position = document.endPosition := Nat.le_antisymm inside.position atEnd
    have absent : document.content[position]? = none := by
      rw [document.endPosition_eq] at atEnd
      exact List.getElem?_eq_none (by omega)
    have drawable : document.Drawable overflow position := reached ▸ answered.resolve_left more
    rw [next_of_atEnd atEnd drawable, absent, Nat.min_eq_right (atEnd.trans (Nat.le_succ _)),
      ← reached]

theorem Inside.after_next_eq (inside : Inside home cursor) :
    Inside home { cursor with position := min (cursor.position + 1) home.endPosition } :=
  ⟨inside.document, Nat.min_le_right .., inside.marks⟩

/-- Past the end it does not matter by how much. -/
theorem getElem?_content_min (home : Document) (position k : Nat) :
    home.content[min position home.endPosition + k]? = home.content[position + k]? := by
  by_cases within : position ≤ home.endPosition
  · rw [Nat.min_eq_left within]
  · rw [home.endPosition_eq] at within ⊢
    rw [List.getElem?_eq_none (by omega), List.getElem?_eq_none (by omega)]

theorem run_cons (overflow : Overflow) (asked : Move) (moves : List Move) (cursor : Cursor) :
    run overflow (asked :: moves) cursor =
      ((move overflow asked cursor).1 :: (run overflow moves (move overflow asked cursor).2).1,
        (run overflow moves (move overflow asked cursor).2).2) := rfl

/-- Any number of calls: the scalar values ahead as far as there are any, and then nothing. -/
theorem Inside.run_next (inside : Inside home cursor) {n : Nat}
    (answered : cursor.position + n ≤ home.endPosition ∨ home.Drawable overflow home.endPosition) :
    run overflow (List.replicate n .next) cursor =
      ((List.range n).map fun k => .scalar home.content[cursor.position + k]?,
        { cursor with position := min (cursor.position + n) home.endPosition }) := by
  -- The induction is on the calls. A cursor that one of them has stopped at the end sees what it would see
  -- if it had been let past it.
  induction n generalizing cursor with
  | zero =>
    rw [Nat.add_zero, Nat.min_eq_left inside.position]
    rfl
  | succ n ih =>
    have limits : min (min (cursor.position + 1) home.endPosition + n) home.endPosition =
        min (cursor.position + (n + 1)) home.endPosition := by omega
    have first : cursor.position < home.endPosition ∨ home.Drawable overflow home.endPosition :=
      answered.imp_left fun within => by omega
    have others : min (cursor.position + 1) home.endPosition + n ≤ home.endPosition ∨
        home.Drawable overflow home.endPosition := answered.imp_left fun within => by omega
    rw [List.replicate_succ, run_cons, move, replyWith, inside.next?_eq first]
    dsimp only
    rw [ih inside.after_next_eq others, List.range_succ_eq_map, List.map_cons, List.map_map, limits]
    simp only [getElem?_content_min, Function.comp_def, Nat.succ_eq_add_one, Nat.add_zero,
      Nat.add_assoc, Nat.add_comm 1]

/-- Calls until one gives nothing: all scalar values ahead, with the cursor on the end of the stream. -/
theorem Inside.take_eq (inside : Inside home cursor) {n : Nat}
    (answered : cursor.position < home.endPosition ∨ home.Drawable overflow home.endPosition)
    (enough : home.size - cursor.position < n) :
    take overflow n cursor =
      .ok (home.content.drop cursor.position) { cursor with position := home.endPosition } := by
  have length : home.content.length = home.size := Nat.succ.inj home.endPosition_eq.symm
  -- The induction is on the calls. The one that gives nothing is made in front of the end or on it, and
  -- leaves the cursor on it either way.
  induction n generalizing cursor with
  | zero => exact absurd enough (Nat.not_lt_zero _)
  | succ n ih =>
    cases ahead : home.content[cursor.position]? with
    | none =>
      have ended := List.getElem?_eq_none_iff.mp ahead
      have reached : min (cursor.position + 1) home.endPosition = home.endPosition := by
        rw [home.endPosition_eq]
        exact Nat.min_eq_right (Nat.succ_le_succ ended)
      have first := inside.next?_eq answered
      rw [ahead, reached] at first
      rw [take, bind_of_ok first, List.drop_eq_nil_of_le ended]
      rfl
    | some c =>
      obtain ⟨within, found⟩ := List.getElem?_eq_some_iff.mp ahead
      have moved : min (cursor.position + 1) home.endPosition = cursor.position + 1 := by
        rw [home.endPosition_eq]
        exact Nat.min_eq_left (Nat.succ_le_succ within.le)
      have first := inside.next?_eq answered
      have inside' := inside.after_next_eq
      rw [moved] at inside'
      rw [ahead, moved] at first
      have more : cursor.position + 1 < home.endPosition := by
        rw [home.endPosition_eq]
        exact Nat.succ_lt_succ within
      have fewer : home.size - (cursor.position + 1) < n := by omega
      rw [take, bind_of_ok first, List.drop_eq_getElem_cons within, found]
      exact bind_of_ok (ih inside' (.inl more) fewer)

section AtEnd

variable (inside : Inside home cursor) (atEnd : cursor.position = home.endPosition)
include inside atEnd

/-- At the end every call gives nothing and changes nothing. -/
theorem Inside.run_next_of_atEnd (drawable : home.Drawable overflow home.endPosition) (n : Nat) :
    run overflow (List.replicate n .next) cursor = (List.replicate n (.scalar none), cursor) := by
  obtain ⟨document, position, marks⟩ := cursor
  obtain rfl : position = home.endPosition := atEnd
  have nothing : ∀ k, home.content[home.endPosition + k]? = none := fun k =>
    List.getElem?_eq_none (by rw [home.endPosition_eq]; omega)
  rw [inside.run_next (.inr drawable), Nat.min_eq_right (Nat.le_add_right ..)]
  simp only [nothing, List.map_const', List.length_range]

theorem Inside.run_next_of_not_drawable (stuck : ¬ home.Drawable overflow home.endPosition)
    (n : Nat) :
    run overflow (List.replicate n .next) cursor =
      (List.replicate n (.failed .overflow), cursor) := by
  obtain ⟨document, position, marks⟩ := cursor
  obtain rfl : document = home := inside.document
  obtain rfl : position = document.endPosition := atEnd
  have answer : move overflow .next ⟨document, document.endPosition, marks⟩ =
      (.failed .overflow, ⟨document, document.endPosition, marks⟩) := by
    rw [move, replyWith, next_of_not_drawable (Nat.le_refl _) stuck]
  induction n with
  | zero => rfl
  | succ n ih => rw [List.replicate_succ, run_cons, answer, ih, List.replicate_succ]

end AtEnd

/-- Wherever moves have taken a cursor, peeking gives what reading would, the same failure too, and changes
nothing. If the sums of a snippet there are words, the failure is an error that carries the snippet.
Unreading what was read and reading what was unread give the cursor back, and what is read then is what
stands at its position. Calls for scalar values give those ahead one after the other, whatever has been
done before: the text from the position on, up to the call that gives none and leaves the cursor on the
end of the stream with all its marks. From then on they give none and change nothing, if a snippet can be
drawn there. If not, each of them stops the program. A new cursor gives the whole text in any case. -/
theorem run_traverses (overflow : Overflow) (home : Document) (moves : List Move) :
    let cursor := (run overflow moves (ofDocument home)).2
    let ended : Cursor := { cursor with position := home.endPosition }
    move overflow .peek cursor = ((move overflow .read cursor).1, cursor) ∧
    (home.SumsFit cursor.position → ∀ failure,
      (move overflow .peek cursor).1 = .failed failure → ∃ error, failure = .refused error ∧
        home.snippetAt "" cursor.position = .ok error.context) ∧
    (∀ symbol after, read overflow cursor = .ok symbol after →
      unread overflow after = .ok () cursor) ∧
    (∀ after, unread overflow cursor = .ok () after →
      ∃ symbol, home.symbolAt cursor.position = .ok symbol ∧
        read overflow after = .ok symbol cursor) ∧
    (∀ n, cursor.position + n ≤ home.endPosition ∨ home.Drawable overflow home.endPosition →
      run overflow (List.replicate n .next) cursor =
        ((List.range n).map fun k => .scalar home.content[cursor.position + k]?,
          { cursor with position := min (cursor.position + n) home.endPosition })) ∧
    (∀ n, cursor.position < home.endPosition ∨ home.Drawable overflow home.endPosition →
      home.size - cursor.position < n →
        take overflow n cursor = .ok (home.content.drop cursor.position) ended) ∧
    (home.Drawable overflow home.endPosition → ∀ n,
      run overflow (List.replicate n .next) ended = (List.replicate n (.scalar none), ended)) ∧
    (¬ home.Drawable overflow home.endPosition → ∀ n,
      run overflow (List.replicate n .next) ended =
        (List.replicate n (.failed .overflow), ended)) ∧
    (∀ i c, home.content[i]? = some c ↔ home.symbolAt (i + 1) = .ok (.scalar c)) ∧
    ∀ n, home.size < n →
      take overflow n (ofDocument home) =
        .ok home.content { ofDocument home with position := home.endPosition } := by
  intro cursor ended
  have inside : Inside home cursor := (inside_ofDocument home).after_run moves
  have inside' : Inside home ended := ⟨inside.document, Nat.le_refl _, inside.marks⟩
  have first : (ofDocument home).position < home.endPosition := Nat.succ_pos _
  refine ⟨peek_eq_read overflow cursor, fun fit failure failed => ?_, fun _ _ => unread_of_read,
    fun _ => inside.read_of_unread, fun _ => inside.run_next, fun _ => inside.take_eq,
    inside'.run_next_of_atEnd rfl, inside'.run_next_of_not_drawable rfl,
    fun _ _ => home.getElem?_content_eq_some_iff,
    fun _ enough => (inside_ofDocument home).take_eq (.inl first) enough⟩
  obtain ⟨-, refusal, rfl⟩ := move_of_failed failed
  exact inside.exists_error_of_sumsFit fit refusal

/-- In a text of two letters, behind a read, a save and an unread: one letter is still ahead of the cursor
that the first letter has been read with, and both are ahead of the one that has gone back. -/
theorem run_traverses_two_letters :
    let home := Document.laidOut ['a', 'b'] {}
    let cursor : Cursor := ⟨home, 1, [1]⟩
    let back : Cursor := ⟨home, 0, [1]⟩
    let ended : Cursor := ⟨home, 3, [1]⟩
    (run .stop [.read, .mark] (ofDocument home)).2 = cursor ∧
      (run .stop [.read, .mark, .unread] (ofDocument home)).2 = back ∧
      (∃ after, read .stop cursor = .ok (.scalar 'b') after ∧ unread .stop after = .ok () cursor) ∧
      (unread .stop cursor = .ok () back ∧ read .stop back = .ok (.scalar 'a') cursor) ∧
      take .stop 2 cursor = .ok ['b'] ended ∧ take .stop 3 back = .ok ['a', 'b'] ended ∧
      run .stop [.next] ended = ([.scalar none], ended) := by
  intro home cursor back ended
  obtain ⟨-, -, forth_and_back, back_and_forth, -, ahead, after_end, -⟩ :=
    run_traverses .stop home [.read, .mark]
  obtain ⟨-, -, -, -, -, all, -⟩ := run_traverses .stop home [.read, .mark, .unread]
  have unreads : unread .stop cursor = .ok () back := rfl
  obtain ⟨symbol, stands, reads⟩ := back_and_forth back unreads
  obtain rfl : Symbol.scalar 'a' = symbol := Except.ok.inj stands
  exact ⟨rfl, rfl, ⟨_, rfl, forth_and_back _ _ rfl⟩, ⟨unreads, reads⟩,
    ahead 2 (.inl (by decide)) (by decide), all 3 (.inl (by decide)) (by decide),
    after_end (.inr ⟨by decide, by decide⟩) 1⟩

/-- With as many lines above as a word can count, there is no room in a word for one more. On the end there
is then no answer, or peeking shows another snippet. -/
theorem not_forall_end_answered :
    ¬ ∃ overflow : Overflow, ∀ home : Document, Document.Built home → ∀ moves,
      (run overflow moves (ofDocument home)).2.position = home.endPosition →
        (run overflow [.next] (run overflow moves (ofDocument home)).2).1 = [.scalar none] ∧
        ∃ error, (move overflow .peek (run overflow moves (ofDocument home)).2).1 =
            .failed (.refused error) ∧
          home.snippetAt "" home.endPosition = .ok error.context := by
  rintro ⟨overflow, claim⟩
  have built : Document.Built (.laidOut ['a'] { linesBefore := Word.limit - 1 }) :=
    .ofScalars ((Document.document_foldl_add ['a'] { linesBefore := Word.limit - 1 }).trans rfl)
  obtain ⟨gives, error, peeks, shown⟩ := claim _ built [.read, .read] rfl
  cases overflow with
  | stop => exact absurd gives (by decide)
  | wrap =>
    have other : error = ⟨.atEnd, "\n ^__ Line 1"⟩ :=
      Failure.refused.inj (Reply.failed.inj (peeks.symm.trans rfl))
    rw [other] at shown
    exact absurd shown (by decide)

end Cursor

end UnicodeInput
