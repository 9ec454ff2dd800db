import UnicodeInput.Cursor

/-! Snippets as they are meant, with numbers of lines that are numbers, and as they are drawn, with numbers
that are words. `SumsFit` says that the two sums a snippet takes are words. Where they are, drawing gives
the snippet that is meant, whatever becomes of other sums. Where they are not, nothing is drawn by a
program that stops at such a sum, and some snippet is drawn by one that goes on. -/
namespace UnicodeInput

namespace Document

/-! ## Snippets with numbers that are numbers -/

/-- Where the lines above the caret begin, for a position on `line`. -/
def contextStart (document : Document) (line position : Nat) : Nat :=
  if line ≤ document.options.linesBefore + 1 then 1
  else
    match document.lastAbove? (line - document.options.linesBefore) position with
    | some i => i + 1
    | none => 1

def snippetChars (document : Document) (message : List Char) (position : Nat) : List Char :=
  let position := min position document.endPosition
  let place := document.place position
  document.windowChars message place (document.contextStart place.line position)
    (place.line + document.options.linesAfter)

/-- The snippet around a position. Past the last position, it is that of the end. -/
def snippet (document : Document) (message : String) (position : Nat) : String :=
  String.ofList (document.snippetChars message.toList position)

def snippetAt (document : Document) (message : String) : Nat → Except OutOfRange String :=
  document.checked (document.snippet message)

/-- The sums that a snippet around a position takes are words. -/
structure SumsFit (document : Document) (position : Nat) : Prop where
  above : document.options.linesBefore + 1 < Word.limit
  below : (document.place position).line + document.options.linesAfter < Word.limit

/-- A snippet around a position can be drawn, the one that is meant or not. -/
def Drawable (document : Document) (overflow : Overflow) (position : Nat) : Prop :=
  overflow = .wrap ∨ document.SumsFit position

variable (document : Document) (overflow : Overflow)

theorem place_min (position : Nat) :
    document.place (min position document.endPosition) = document.place position := by
  by_cases inside : position ≤ document.endPosition
  · rw [Nat.min_eq_left inside]
  · rw [Nat.min_eq_right (by omega)]
    cases position with
    | zero => exact absurd (Nat.zero_le _) inside
    | succ i =>
      unfold endPosition at inside
      have behind : document.cells.size ≤ i := by omega
      simp [place, endPosition, behind]

/-! ## Drawing -/

theorem windowStart_of_lt {line : Nat} (above : document.options.linesBefore + 1 < Word.limit)
    (word : line < Word.limit) (position : Nat) :
    document.windowStart overflow line position = some (document.contextStart line position) := by
  rw [windowStart, contextStart, overflow.add_of_lt above, Option.bind_eq_bind, Option.bind_some]
  by_cases near : line ≤ document.options.linesBefore + 1
  · rw [if_pos near, if_pos near]
    rfl
  · have far : document.options.linesBefore ≤ line := by omega
    rw [if_neg near, if_neg near, overflow.sub_of_le far word, Option.bind_some]
    cases document.lastAbove? (line - document.options.linesBefore) position <;> rfl

theorem exists_windowStart_wrap (line position : Nat) :
    ∃ start, document.windowStart .wrap line position = some start := by
  rw [windowStart, Overflow.add, Option.bind_eq_bind, Option.bind_some]
  split
  · exact ⟨_, rfl⟩
  · rw [Overflow.sub, Option.bind_some]
    split
    · exact ⟨_, rfl⟩
    · exact ⟨_, rfl⟩

/-- Drawing gives the snippet that is meant. -/
theorem drawChars_of_sumsFit {position : Nat} (fit : document.SumsFit position) (message : List Char) :
    document.drawChars overflow message position = some (document.snippetChars message position) := by
  have below := fit.below
  rw [← place_min] at below
  rw [drawChars, snippetChars, overflow.add_of_lt below, Option.bind_eq_bind, Option.bind_some,
    document.windowStart_of_lt overflow fit.above (Nat.lt_of_le_of_lt (Nat.le_add_right ..) below)]
  rfl

theorem exists_drawChars_wrap (message : List Char) (position : Nat) :
    ∃ shown, document.drawChars .wrap message position = some shown := by
  obtain ⟨start, begins⟩ := document.exists_windowStart_wrap
    (document.place (min position document.endPosition)).line (min position document.endPosition)
  rw [drawChars, Overflow.add, Option.bind_eq_bind, Option.bind_some, begins]
  exact ⟨_, rfl⟩

/-- A program that stops at a sum which is no word draws nothing. -/
theorem drawChars_stop_of_not_sumsFit {position : Nat} (short : ¬ document.SumsFit position)
    (message : List Char) : document.drawChars .stop message position = none := by
  rw [drawChars, place_min, Overflow.add]
  by_cases below : (document.place position).line + document.options.linesAfter < Word.limit
  · have above : Word.limit ≤ document.options.linesBefore + 1 :=
      Nat.le_of_not_lt fun above => short ⟨above, below⟩
    rw [Word.sum?, if_pos below, Option.bind_eq_bind, Option.bind_some, windowStart, Overflow.add,
      Word.sum?_eq_none_iff.mpr above]
    rfl
  · rw [Word.sum?, if_neg below]
    rfl

variable {document overflow} {position : Nat} {message : String}

theorem draw_of_sumsFit (fit : document.SumsFit position) :
    document.draw overflow message position = some (document.snippet message position) := by
  rw [draw, document.drawChars_of_sumsFit overflow fit]
  rfl

theorem exists_draw (message : String) (drawable : document.Drawable overflow position) :
    ∃ shown, document.draw overflow message position = some shown := by
  rcases drawable with rfl | fit
  · obtain ⟨shown, drawn⟩ := document.exists_drawChars_wrap message.toList position
    rw [draw, drawn]
    exact ⟨_, rfl⟩
  · exact ⟨_, draw_of_sumsFit fit⟩

theorem draw_of_not_drawable (stuck : ¬ document.Drawable overflow position) :
    document.draw overflow message position = none := by
  obtain ⟨stops, short⟩ := not_or.mp stuck
  cases overflow with
  | wrap => exact absurd rfl stops
  | stop =>
    rw [draw, document.drawChars_stop_of_not_sumsFit short]
    rfl

theorem drawAt_of_le (inside : position ≤ document.endPosition) :
    document.drawAt overflow message position = .ok <$> document.draw overflow message position :=
  if_pos inside

theorem drawAt_of_sumsFit (fit : document.SumsFit position) :
    document.drawAt overflow message position = some (document.snippetAt message position) := by
  rw [drawAt, snippetAt, checked]
  split
  · rw [draw_of_sumsFit fit]
    rfl
  · rfl

end Document

namespace Cursor

def snippet (cursor : Cursor) (message : String) : String :=
  cursor.document.snippet message cursor.position

def snippetAt (cursor : Cursor) (message : String) : Nat → Except OutOfRange String :=
  cursor.document.snippetAt message

end Cursor

end UnicodeInput
