import UnicodeInput.Proofs.Cursor.Bounds

/-! Trying a way on and going back. What is done after a mark may save positions and go back to them as
it likes. As long as it leaves more positions saved than there were before the mark, the mark and all
below it stay as they are, whatever was refused on the way. Going back to the mark then gives the very
cursor from before it, so no later move can tell that anything was tried. -/
namespace UnicodeInput.Cursor

variable {overflow : Overflow} {base cursor after : Cursor}

/-! ## One move -/

/-- The positions that are saved after a move. -/
def marksAfter (cursor : Cursor) : Move → List Nat
  | .read | .peek | .unread | .unreadWithin | .next => cursor.marks
  | .mark => cursor.position :: cursor.marks
  | .reset => cursor.marks.tail
  | .resetAll | .forgetMarks => []

/-- A cursor that is as another one, but for where it is. -/
def Walked (cursor after : Cursor) : Prop := ∃ position, after = { cursor with position }

theorem walked_self (cursor : Cursor) : Walked cursor cursor := ⟨cursor.position, rfl⟩

theorem walked_read : Walked cursor (replyWith .symbol (read overflow) cursor).2 := by
  refine after_replyWith (walked_self cursor) (fun symbol after done => ?_) fun _ _ failed =>
    (read_eq_error_iff.mp failed).2.2
  obtain ⟨-, -, rfl⟩ := read_eq_ok_iff.mp done
  exact ⟨_, rfl⟩

theorem walked_peek : Walked cursor (replyWith .symbol (peek overflow) cursor).2 := by
  refine after_replyWith (walked_self cursor) (fun symbol after done => ?_) fun _ _ failed =>
    (peek_eq_error_iff.mp failed).2.2
  obtain ⟨-, -, rfl⟩ := peek_eq_ok_iff.mp done
  exact walked_self cursor

theorem walked_unread : Walked cursor (replyWith (fun _ => .done) (unread overflow) cursor).2 := by
  refine after_replyWith (walked_self cursor) (fun _ after done => ?_) fun _ _ failed =>
    (unread_eq_error_iff.mp failed).2.2
  obtain ⟨-, rfl⟩ := unread_eq_ok_iff.mp done
  exact ⟨_, rfl⟩

theorem walked_unreadWithin : Walked cursor cursor.unreadWithin := by
  unfold unreadWithin
  split
  · exact ⟨_, rfl⟩
  · exact walked_self cursor

/-- Going back to no mark is refused, and forgets none. -/
theorem reset_snd : ∃ position,
    (replyWith (fun _ => .done) (reset overflow) cursor).2 =
      { cursor with position, marks := cursor.marks.tail } := by
  cases result : reset overflow cursor with
  | ok _ after =>
    obtain ⟨position, marks, saved, rfl⟩ := reset_eq_ok_iff.mp result
    refine ⟨position, ?_⟩
    rw [replyWith, result, saved, List.tail_cons]
  | error failure after =>
    obtain ⟨none_saved, -, rfl⟩ := reset_eq_error_iff.mp result
    refine ⟨after.position, ?_⟩
    rw [replyWith, result, none_saved, List.tail_nil, ← none_saved]

/-- A move goes somewhere and saves or forgets positions, and does nothing else. -/
theorem exists_move_eq (overflow : Overflow) (asked : Move) (cursor : Cursor) : ∃ position,
    (move overflow asked cursor).2 = { cursor with position, marks := cursor.marksAfter asked } := by
  cases asked with
  | read => exact walked_read
  | peek => exact walked_peek
  | unread => exact walked_unread
  | unreadWithin => exact walked_unreadWithin
  | next => exact replyWith_next_snd ▸ walked_read
  | mark => exact ⟨_, rfl⟩
  | reset => exact reset_snd
  | resetAll => exact ⟨_, rfl⟩
  | forgetMarks => exact ⟨_, rfl⟩

/-! ## Above a mark -/

/-- A cursor that has something saved above the mark made at `base`, or that mark alone. -/
structure Above (base cursor : Cursor) : Prop where
  document : cursor.document = base.document
  marks : base.position :: base.marks <:+ cursor.marks

theorem above_mark (base : Cursor) : Above base base.mark := ⟨rfl, List.suffix_rfl⟩

/-- Positions are saved and forgotten from the top, so those below stay as long as there are enough. -/
theorem suffix_marksAfter {saved : List Nat} (below : saved <:+ cursor.marks) (asked : Move)
    (deep : saved.length ≤ (cursor.marksAfter asked).length) : saved <:+ cursor.marksAfter asked := by
  cases asked with
  | read | peek | unread | unreadWithin | next => exact below
  | mark => exact below.trans (List.suffix_cons ..)
  | reset =>
    change saved.length ≤ cursor.marks.tail.length at deep
    show saved <:+ cursor.marks.tail
    exact List.suffix_of_suffix_length_le below (List.tail_suffix _) deep
  | resetAll | forgetMarks =>
    obtain rfl : saved = [] := List.length_eq_zero_iff.mp (Nat.le_zero.mp deep)
    exact List.suffix_rfl

theorem Above.after_move (above : Above base cursor) (asked : Move)
    (deep : base.marks.length + 1 ≤ (move overflow asked cursor).2.marks.length) :
    Above base (move overflow asked cursor).2 := by
  obtain ⟨position, moved⟩ := exists_move_eq overflow asked cursor
  rw [moved] at deep ⊢
  exact ⟨above.document, suffix_marksAfter above.marks asked deep⟩

theorem Above.after_run (above : Above base cursor) {moves : List Move}
    (deep : ∀ n ≤ moves.length,
      base.marks.length + 1 ≤ (run overflow (moves.take n) cursor).2.marks.length) :
    Above base (run overflow moves cursor).2 := by
  induction moves generalizing cursor with
  | nil => exact above
  | cons asked moves ih =>
    refine ih (above.after_move asked (deep 1 (Nat.le_add_left ..))) fun n within => ?_
    exact deep (n + 1) (Nat.succ_le_succ within)

/-- With nothing saved above the mark, going back gives the cursor from before it. -/
theorem Above.reset_eq (above : Above base cursor)
    (level : cursor.marks.length = base.marks.length + 1) : reset overflow cursor = .ok () base := by
  have saved : base.position :: base.marks = cursor.marks :=
    above.marks.eq_of_length level.symm
  refine reset_eq_ok_iff.mpr ⟨base.position, base.marks, saved.symm, ?_⟩
  rw [above.document]

/-- The earliest position of all is that of the mark, if nothing was saved before it. -/
theorem Above.resetAll_eq (above : Above base cursor) (first : base.marks = []) :
    cursor.resetAll = base := by
  obtain ⟨document, position, marks⟩ := base
  obtain rfl : marks = [] := first
  obtain ⟨saved, split⟩ := above.marks
  rw [resetAll, ← split, List.getLastD_eq_getLast?, List.getLast?_concat, above.document]
  rfl

/-! ## Many moves -/

theorem run_append (overflow : Overflow) (moves later : List Move) (cursor : Cursor) :
    run overflow (moves ++ later) cursor =
      ((run overflow moves cursor).1 ++ (run overflow later (run overflow moves cursor).2).1,
        (run overflow later (run overflow moves cursor).2).2) := by
  induction moves generalizing cursor with
  | nil => rfl
  | cons asked moves ih => simp only [List.cons_append, run, ih]

/-- Moves made after a mark, refused ones too, that always leave more saved than there was before the
mark, leave the mark and all below it untouched. If nothing is left above the mark in the end, going back
to it succeeds, and everything after is answered as if there had been no mark and none of the moves. If
the mark was the first, going back to the earliest position gives the cursor from before it, however much
is saved. -/
theorem run_above_mark (overflow : Overflow) (cursor : Cursor) (moves : List Move)
    (deep : ∀ n ≤ moves.length,
      cursor.marks.length + 1 ≤ (run overflow (moves.take n) cursor.mark).2.marks.length) :
    (∀ n ≤ moves.length,
      cursor.position :: cursor.marks <:+ (run overflow (moves.take n) cursor.mark).2.marks) ∧
    ((run overflow moves cursor.mark).2.marks.length = cursor.marks.length + 1 →
      move overflow .reset (run overflow moves cursor.mark).2 = (.done, cursor) ∧
      ∀ later, run overflow (.mark :: moves ++ .reset :: later) cursor =
        (.done :: (run overflow moves cursor.mark).1 ++ .done :: (run overflow later cursor).1,
          (run overflow later cursor).2)) ∧
    (cursor.marks = [] →
      move overflow .resetAll (run overflow moves cursor.mark).2 = (.done, cursor)) := by
  have above : ∀ n ≤ moves.length, Above cursor (run overflow (moves.take n) cursor.mark).2 := by
    intro n within
    refine (above_mark cursor).after_run fun m inside => ?_
    rw [List.length_take, Nat.min_eq_left within] at inside
    rw [List.take_take, Nat.min_eq_left inside]
    exact deep m (inside.trans within)
  have whole := above moves.length (Nat.le_refl _)
  rw [List.take_length] at whole
  refine ⟨fun n within => (above n within).marks, fun level => ?_, fun first => ?_⟩
  · have back : move overflow .reset (run overflow moves cursor.mark).2 = (.done, cursor) := by
      rw [move, replyWith, whole.reset_eq level]
    refine ⟨back, fun later => ?_⟩
    have marked : run overflow (.mark :: moves ++ .reset :: later) cursor =
        (.done :: (run overflow (moves ++ .reset :: later) cursor.mark).1,
          (run overflow (moves ++ .reset :: later) cursor.mark).2) := rfl
    rw [marked, run_append, run, back]
    rfl
  · exact congrArg (Reply.done, ·) (whole.resetAll_eq first)

/-- From position 1 of a text of two letters, with a mark inside the attempt and a read past its end. -/
theorem run_above_mark_past_end :
    let cursor : Cursor := ⟨.laidOut ['a', 'b'] {}, 1, []⟩
    let moves : List Move := [.read, .mark, .read, .read, .reset, .peek]
    (run .stop moves cursor.mark).2 = ⟨cursor.document, 2, [1]⟩ ∧
    (∀ n ≤ 6, [1] <:+ (run .stop (moves.take n) cursor.mark).2.marks) ∧
    move .stop .reset (run .stop moves cursor.mark).2 = (.done, cursor) ∧
    move .stop .resetAll (run .stop moves cursor.mark).2 = (.done, cursor) := by
  intro cursor moves
  obtain ⟨untouched, back, back_all⟩ := run_above_mark .stop cursor moves (by decide)
  exact ⟨by decide, untouched, (back (by decide)).1, back_all rfl⟩

end UnicodeInput.Cursor
