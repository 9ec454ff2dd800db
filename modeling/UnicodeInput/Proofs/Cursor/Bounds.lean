import UnicodeInput.Proofs.Cursor.Moves
import UnicodeInput.Proofs.Document.Built
import UnicodeInput.Proofs.Document.Drawing

/-! Where a cursor can be. No move changes the document, and none takes the cursor or a saved position
past the end of it: a position is saved only where the cursor is, so going back to one is never going
too far. A move is refused at one of three edges, and a refused move leaves everything as it was. Its
error carries the snippet there, unless drawing that takes a sum which is no word. -/
namespace UnicodeInput.Cursor

variable {overflow : Overflow}

/-- A cursor inside a document, with all that it has saved. -/
structure Inside (home : Document) (cursor : Cursor) : Prop where
  document : cursor.document = home
  position : cursor.position ≤ home.endPosition
  marks : ∀ mark ∈ cursor.marks, mark ≤ home.endPosition

/-- Whether a move is answered with a failure. -/
def Fails (overflow : Overflow) (cursor : Cursor) (asked : Move) : Prop :=
  ∃ failure, (move overflow asked cursor).1 = .failed failure

/-! ## The moves that can be refused -/

section Refusal

variable {cursor after : Cursor} {failure : Failure}

theorem refuse_eq_error_iff {α : Type} {refusal : Refusal} :
    (refuse overflow refusal : EStateM Failure Cursor α) cursor = .error failure after ↔
      failure = cursor.failure overflow refusal ∧ after = cursor := by
  constructor
  · intro refused
    cases refused
    exact ⟨rfl, rfl⟩
  · rintro ⟨rfl, rfl⟩
    rfl

/-- A guarded move that fails does so because of its guard. -/
theorem guarded_eq_error_iff {α : Type} {refusal : Refusal} {guard : Prop} [Decidable guard]
    {action : EStateM Failure Cursor α}
    (answers : ∀ failure after, action cursor ≠ .error failure after) :
    (if guard then action else refuse overflow refusal : EStateM Failure Cursor α) cursor =
        .error failure after ↔
      ¬ guard ∧ failure = cursor.failure overflow refusal ∧ after = cursor := by
  by_cases passes : guard
  · rw [if_pos passes]
    exact ⟨fun failed => absurd failed (answers _ _), fun refused => absurd passes refused.1⟩
  · rw [if_neg passes, refuse_eq_error_iff, and_iff_right passes]

/-- A guarded move is made if its guard is met, and then does what it does without it. -/
theorem guarded_eq_ok_iff {α : Type} {refusal : Refusal} {guard : Prop} [Decidable guard]
    {action : EStateM Failure Cursor α} {a : α} :
    (if guard then action else refuse overflow refusal : EStateM Failure Cursor α) cursor =
        .ok a after ↔
      guard ∧ action cursor = .ok a after := by
  by_cases passes : guard
  · rw [if_pos passes, and_iff_right passes]
  · rw [if_neg passes]
    exact ⟨nofun, fun made => absurd made.1 passes⟩

theorem read_eq_ok_iff {symbol : Symbol} :
    read overflow cursor = .ok symbol after ↔ cursor.position < cursor.document.endPosition ∧
      cursor.document.symbol (cursor.position + 1) = symbol ∧
        { cursor with position := cursor.position + 1 } = after := by
  rw [← EStateM.Result.ok.injEq]
  exact guarded_eq_ok_iff

theorem peek_eq_ok_iff {symbol : Symbol} :
    peek overflow cursor = .ok symbol after ↔ cursor.position < cursor.document.endPosition ∧
      cursor.document.symbol (cursor.position + 1) = symbol ∧ cursor = after := by
  rw [← EStateM.Result.ok.injEq]
  exact guarded_eq_ok_iff

theorem unread_eq_ok_iff :
    unread overflow cursor = .ok () after ↔ cursor.position ≠ 0 ∧
      { cursor with position := cursor.position - 1 } = after := by
  change (ite _ _ _ : EStateM Failure Cursor Unit) cursor = _ ↔ _
  rw [← ite_not, guarded_eq_ok_iff]
  refine and_congr_right fun _ => ⟨fun moved => ?_, fun moved => moved ▸ rfl⟩
  cases moved
  rfl

theorem reset_eq_ok_iff :
    reset overflow cursor = .ok () after ↔ ∃ position marks, cursor.marks = position :: marks ∧
      { cursor with position, marks } = after := by
  obtain ⟨document, position, marks⟩ := cursor
  cases marks with
  | nil => exact ⟨nofun, fun given => nomatch given⟩
  | cons mark marks =>
    constructor
    · intro done
      cases done
      exact ⟨mark, marks, rfl, rfl⟩
    · rintro ⟨_, _, same, rfl⟩
      cases same
      rfl

theorem read_eq_error_iff :
    read overflow cursor = .error failure after ↔
      cursor.document.endPosition ≤ cursor.position ∧
        failure = cursor.failure overflow .atEnd ∧ after = cursor := by
  rw [← Nat.not_lt]
  exact guarded_eq_error_iff nofun

theorem peek_eq_error_iff :
    peek overflow cursor = .error failure after ↔
      cursor.document.endPosition ≤ cursor.position ∧
        failure = cursor.failure overflow .atEnd ∧ after = cursor := by
  rw [← Nat.not_lt]
  exact guarded_eq_error_iff nofun

theorem unread_eq_error_iff :
    unread overflow cursor = .error failure after ↔
      cursor.position = 0 ∧ failure = cursor.failure overflow .atStart ∧ after = cursor := by
  rw [← not_not (a := cursor.position = 0)]
  change (ite _ _ _ : EStateM Failure Cursor Unit) cursor = _ ↔ _
  rw [← ite_not]
  exact guarded_eq_error_iff nofun

theorem reset_eq_error_iff :
    reset overflow cursor = .error failure after ↔
      cursor.marks = [] ∧ failure = cursor.failure overflow .noMark ∧ after = cursor := by
  obtain ⟨document, position, marks⟩ := cursor
  cases marks with
  | nil => exact refuse_eq_error_iff.trans (and_iff_right rfl).symm
  | cons mark marks => exact ⟨nofun, fun refused => nomatch refused.1⟩

/-- The refusal to read on is dropped. What cannot be dropped is that it could not be shown. -/
theorem next_eq_error_iff :
    next? overflow cursor = .error failure after ↔
      read overflow cursor = .error .overflow after ∧ failure = .overflow := by
  unfold next?
  cases read overflow cursor with
  | ok symbol rest => exact ⟨nofun, nofun⟩
  | error e rest => cases e <;> simp [and_comm, eq_comm]

/-- The answer to a move is a failure exactly if its action fails. -/
theorem replyWith_eq_failed_iff {α : Type} {reply : α → Reply} {action : EStateM Failure Cursor α}
    (answers : ∀ a, reply a ≠ .failed failure) :
    replyWith reply action cursor = (.failed failure, after) ↔
      action cursor = .error failure after := by
  unfold replyWith
  cases action cursor with
  | ok a rest => exact ⟨fun h => absurd (congrArg Prod.fst h) (answers a), nofun⟩
  | error e rest =>
    constructor
    · intro h
      cases h
      rfl
    · intro h
      cases h
      rfl

theorem fails_iff {α : Type} {asked : Move} {reply : α → Reply} {action : EStateM Failure Cursor α}
    {refusal : Refusal} {edge : Prop}
    (does : move overflow asked cursor = replyWith reply action cursor)
    (answers : ∀ a failure, reply a ≠ .failed failure)
    (fails : ∀ failure after, action cursor = .error failure after ↔
      edge ∧ failure = cursor.failure overflow refusal ∧ after = cursor) :
    cursor.Fails overflow asked ↔ edge := by
  unfold Fails
  rw [does]
  constructor
  · rintro ⟨failure, refused⟩
    have failed := (replyWith_eq_failed_iff fun a => answers a failure).mp (Prod.ext refused rfl)
    exact ((fails _ _).mp failed).1
  · intro atEdge
    have failed := (fails _ _).mpr ⟨atEdge, rfl, rfl⟩
    rw [(replyWith_eq_failed_iff fun a => answers a _).mpr failed]
    exact ⟨_, rfl⟩

/-! ## How a refusal is shown -/

variable {refusal : Refusal}

theorem exists_failure_eq (refusal : Refusal)
    (drawable : cursor.document.Drawable overflow cursor.position) :
    ∃ context, cursor.failure overflow refusal = .refused ⟨refusal, context⟩ ∧
      cursor.draw overflow "" = some context := by
  obtain ⟨context, drawn⟩ := Document.exists_draw "" drawable
  have shown : cursor.draw overflow "" = some context := drawn
  exact ⟨context, by rw [Cursor.failure, shown], shown⟩

theorem failure_of_not_drawable
    (stuck : ¬ cursor.document.Drawable overflow cursor.position) :
    cursor.failure overflow refusal = .overflow := by
  have none_drawn : cursor.draw overflow "" = none := Document.draw_of_not_drawable stuck
  rw [Cursor.failure, none_drawn]

end Refusal

/-! ## One move -/

section Step

variable {home : Document} {cursor : Cursor}

theorem inside_ofDocument (home : Document) : Inside home (ofDocument home) where
  document := rfl
  position := Nat.zero_le _
  marks := nofun

/-- Where an action may have taken the cursor: on, if it was answered, or nowhere. -/
theorem after_replyWith {P : Cursor → Prop} {α : Type} {reply : α → Reply}
    {action : EStateM Failure Cursor α} (stays : P cursor)
    (answers : ∀ a after, action cursor = .ok a after → P after)
    (fails : ∀ failure after, action cursor = .error failure after → after = cursor) :
    P (replyWith reply action cursor).2 := by
  unfold replyWith
  cases result : action cursor with
  | ok a after => exact answers a after result
  | error failure after =>
    rw [fails failure after result]
    exact stays

/-- The next scalar value is read like any symbol. -/
theorem replyWith_next_snd :
    (replyWith .scalar (next? overflow) cursor).2 =
      (replyWith .symbol (read overflow) cursor).2 := by
  rw [replyWith, replyWith, next?]
  cases read overflow cursor with
  | ok symbol after => rfl
  | error failure after => cases failure <;> rfl

section Inside

variable (inside : Inside home cursor)
include inside

theorem Inside.back : Inside home { cursor with position := cursor.position - 1 } :=
  ⟨inside.document, (Nat.sub_le ..).trans inside.position, inside.marks⟩

theorem Inside.after_read : Inside home (replyWith .symbol (read overflow) cursor).2 := by
  refine after_replyWith inside (fun symbol after done => ?_) fun _ _ failed =>
    (read_eq_error_iff.mp failed).2.2
  obtain ⟨more, -, rfl⟩ := read_eq_ok_iff.mp done
  exact ⟨inside.document, inside.document ▸ more, inside.marks⟩

theorem Inside.after_peek : Inside home (replyWith .symbol (peek overflow) cursor).2 := by
  refine after_replyWith inside (fun symbol after done => ?_) fun _ _ failed =>
    (peek_eq_error_iff.mp failed).2.2
  obtain ⟨-, -, rfl⟩ := peek_eq_ok_iff.mp done
  exact inside

theorem Inside.after_unread : Inside home (replyWith (fun _ => .done) (unread overflow) cursor).2 := by
  refine after_replyWith inside (fun _ after done => ?_) fun _ _ failed =>
    (unread_eq_error_iff.mp failed).2.2
  obtain ⟨-, rfl⟩ := unread_eq_ok_iff.mp done
  exact inside.back

theorem Inside.after_unreadWithin : Inside home cursor.unreadWithin := by
  unfold unreadWithin
  split
  · exact inside.back
  · exact inside

theorem Inside.after_next : Inside home (replyWith .scalar (next? overflow) cursor).2 := by
  rw [replyWith_next_snd]
  exact inside.after_read

theorem Inside.after_mark : Inside home cursor.mark :=
  ⟨inside.document, inside.position, List.forall_mem_cons.mpr ⟨inside.position, inside.marks⟩⟩

theorem Inside.after_reset : Inside home (replyWith (fun _ => .done) (reset overflow) cursor).2 := by
  refine after_replyWith inside (fun _ after done => ?_) fun _ _ failed =>
    (reset_eq_error_iff.mp failed).2.2
  obtain ⟨mark, marks, saved, rfl⟩ := reset_eq_ok_iff.mp done
  obtain ⟨latest, earlier⟩ := List.forall_mem_cons.mp (saved ▸ inside.marks)
  exact ⟨inside.document, latest, earlier⟩

theorem Inside.after_resetAll : Inside home cursor.resetAll := by
  refine ⟨inside.document, ?_, nofun⟩
  show cursor.marks.getLastD cursor.position ≤ home.endPosition
  rw [List.getLastD_eq_getLast?]
  cases oldest : cursor.marks.getLast? with
  | none => exact inside.position
  | some mark => exact inside.marks mark (List.mem_of_getLast? oldest)

/-- No move leaves the document. -/
theorem Inside.after_move (asked : Move) : Inside home (move overflow asked cursor).2 := by
  cases asked with
  | read => exact inside.after_read
  | peek => exact inside.after_peek
  | unread => exact inside.after_unread
  | unreadWithin => exact inside.after_unreadWithin
  | next => exact inside.after_next
  | mark => exact inside.after_mark
  | reset => exact inside.after_reset
  | resetAll => exact inside.after_resetAll
  | forgetMarks => exact ⟨inside.document, inside.position, nofun⟩

end Inside

/-- A move that fails leaves the cursor as it was, and fails as a refusal does there. -/
theorem move_of_failed {asked : Move} {failure : Failure}
    (failed : (move overflow asked cursor).1 = .failed failure) :
    (move overflow asked cursor).2 = cursor ∧
      ∃ refusal, failure = cursor.failure overflow refusal := by
  have answer : move overflow asked cursor = (.failed failure, (move overflow asked cursor).2) :=
    Prod.ext failed rfl
  cases asked with
  | read =>
    obtain ⟨-, shown, stays⟩ := read_eq_error_iff.mp ((replyWith_eq_failed_iff nofun).mp answer)
    exact ⟨stays, _, shown⟩
  | peek =>
    obtain ⟨-, shown, stays⟩ := peek_eq_error_iff.mp ((replyWith_eq_failed_iff nofun).mp answer)
    exact ⟨stays, _, shown⟩
  | unread =>
    obtain ⟨-, shown, stays⟩ := unread_eq_error_iff.mp ((replyWith_eq_failed_iff nofun).mp answer)
    exact ⟨stays, _, shown⟩
  | next =>
    obtain ⟨reads, rfl⟩ := next_eq_error_iff.mp ((replyWith_eq_failed_iff nofun).mp answer)
    obtain ⟨-, shown, stays⟩ := read_eq_error_iff.mp reads
    exact ⟨stays, _, shown⟩
  | reset =>
    obtain ⟨-, shown, stays⟩ := reset_eq_error_iff.mp ((replyWith_eq_failed_iff nofun).mp answer)
    exact ⟨stays, _, shown⟩
  | unreadWithin | mark | resetAll | forgetMarks => cases failed

theorem Inside.exists_error_of_drawable (inside : Inside home cursor)
    (drawable : home.Drawable overflow cursor.position) (refusal : Refusal) :
    ∃ error, cursor.failure overflow refusal = .refused error ∧
      home.drawAt overflow "" cursor.position = some (.ok error.context) := by
  obtain ⟨context, shown, drawn⟩ :=
    exists_failure_eq refusal (inside.document ▸ drawable)
  refine ⟨⟨refusal, context⟩, shown, ?_⟩
  rw [Document.drawAt_of_le inside.position, ← inside.document]
  exact congrArg (Functor.map Except.ok) drawn

theorem Inside.exists_error_of_sumsFit (inside : Inside home cursor)
    (fit : home.SumsFit cursor.position) (refusal : Refusal) :
    ∃ error, cursor.failure overflow refusal = .refused error ∧
      home.snippetAt "" cursor.position = .ok error.context := by
  obtain ⟨error, shown, drawn⟩ := inside.exists_error_of_drawable (.inr fit) refusal
  rw [Document.drawAt_of_sumsFit fit] at drawn
  exact ⟨error, shown, Option.some.inj drawn⟩

theorem next_of_atEnd (atEnd : cursor.document.endPosition ≤ cursor.position)
    (drawable : cursor.document.Drawable overflow cursor.position) :
    next? overflow cursor = .ok none cursor := by
  obtain ⟨context, shown, -⟩ := exists_failure_eq .atEnd drawable
  rw [next?, read_eq_error_iff.mpr ⟨atEnd, rfl, rfl⟩, shown]

theorem next_of_not_drawable (atEnd : cursor.document.endPosition ≤ cursor.position)
    (stuck : ¬ cursor.document.Drawable overflow cursor.position) :
    next? overflow cursor = .error .overflow cursor :=
  next_eq_error_iff.mpr
    ⟨read_eq_error_iff.mpr ⟨atEnd, (failure_of_not_drawable stuck).symm, rfl⟩, rfl⟩

end Step

/-! ## Many moves -/

theorem Inside.after_run {home : Document} {cursor : Cursor} (inside : Inside home cursor)
    (moves : List Move) : Inside home (run overflow moves cursor).2 := by
  induction moves generalizing cursor with
  | nil => exact inside
  | cons asked moves ih => exact ih (inside.after_move asked)

/-- Wherever moves have taken a cursor, it is inside its document with all that it has saved. There is
nothing to read at the end alone, nothing to go back to at the start alone, and no saved position when
there is none. Whatever fails leaves the cursor where it was. If the sums of the snippet there are words,
the failure is an error that carries the snippet. If they are not, a program that goes on puts what it
draws into the error, and one that stops has no error to give, as it has nothing to draw. -/
theorem run_inside (overflow : Overflow) (home : Document) (moves : List Move) :
    let cursor := (run overflow moves (ofDocument home)).2
    Inside home cursor ∧
      (cursor.Fails overflow .read ↔ cursor.position = home.endPosition) ∧
      (cursor.Fails overflow .peek ↔ cursor.position = home.endPosition) ∧
      (cursor.Fails overflow .unread ↔ cursor.position = 0) ∧
      (cursor.Fails overflow .reset ↔ cursor.marks = []) ∧
      (cursor.position = home.endPosition → home.Drawable overflow cursor.position →
        next? overflow cursor = .ok none cursor) ∧
      ∀ asked failure, (move overflow asked cursor).1 = .failed failure →
        (move overflow asked cursor).2 = cursor ∧
        (home.SumsFit cursor.position → ∃ error, failure = .refused error ∧
          home.snippetAt "" cursor.position = .ok error.context) ∧
        (home.Drawable overflow cursor.position → ∃ error, failure = .refused error ∧
          home.drawAt overflow "" cursor.position = some (.ok error.context)) ∧
        (¬ home.Drawable overflow cursor.position → failure = .overflow ∧
          home.drawAt overflow "" cursor.position = none) := by
  intro cursor
  have inside : Inside home cursor := (inside_ofDocument home).after_run moves
  have atEnd : cursor.document.endPosition ≤ cursor.position ↔
      cursor.position = home.endPosition := by
    rw [inside.document]
    exact ⟨fun reached => Nat.le_antisymm inside.position reached, Nat.le_of_eq ∘ Eq.symm⟩
  refine ⟨inside, ?read, ?peek, ?unread, ?reset, ?ended, ?stays⟩
  case read => exact (fails_iff rfl nofun fun _ _ => read_eq_error_iff).trans atEnd
  case peek => exact (fails_iff rfl nofun fun _ _ => peek_eq_error_iff).trans atEnd
  case unread => exact fails_iff rfl nofun fun _ _ => unread_eq_error_iff
  case reset => exact fails_iff rfl nofun fun _ _ => reset_eq_error_iff
  case ended =>
    intro reached drawable
    exact next_of_atEnd (atEnd.mpr reached) (inside.document ▸ drawable)
  case stays =>
    intro asked failure failed
    obtain ⟨stays, refusal, rfl⟩ := move_of_failed failed
    refine ⟨stays, fun fit => inside.exists_error_of_sumsFit fit refusal,
      fun drawable => inside.exists_error_of_drawable drawable refusal, fun stuck => ?_⟩
    refine ⟨failure_of_not_drawable (inside.document ▸ stuck), ?_⟩
    rw [Document.drawAt_of_le inside.position, Document.draw_of_not_drawable stuck]
    rfl

/-- With as many lines below as a word can count, there is no room in a word for the number of the last
one. Going back to no mark then gives no error, or one that does not show the line below. -/
theorem not_forall_failure_shows_snippet :
    ¬ ∃ overflow : Overflow, ∀ home : Document, Document.Built home → ∀ moves asked failure,
      (move overflow asked (run overflow moves (ofDocument home)).2).1 = .failed failure →
        ∃ error, failure = .refused error ∧
          home.snippetAt "" (run overflow moves (ofDocument home)).2.position = .ok error.context := by
  rintro ⟨overflow, claim⟩
  have built : Document.Built
      (.laidOut ['a', Codespace.lineFeed, 'b'] { linesAfter := Word.limit - 1 }) :=
    .ofScalars ((Document.document_foldl_add ['a', Codespace.lineFeed, 'b']
      { linesAfter := Word.limit - 1 }).trans rfl)
  cases overflow with
  | stop =>
    obtain ⟨error, refused, -⟩ := claim _ built [.read] .reset .overflow rfl
    cases refused
  | wrap =>
    obtain ⟨error, refused, shown⟩ := claim _ built [.read] .reset
      (.refused ⟨.noMark, "a\n^__ Line 1"⟩) rfl
    cases refused
    exact absurd shown (by decide)

end UnicodeInput.Cursor
