import UnicodeInput.Document.Snippet

/-! Cursors: reading a document back and forth.

A cursor starts in front of the text and moves by one position. Positions can be saved on a stack
and returned to. A move that is refused leaves the cursor as it was, and its error shows where that
is. Should the snippet that shows it not be drawn, then there is no error either and the move does not
return. -/
namespace UnicodeInput

/-- A position in a document, with the positions saved so far. -/
structure Cursor where
  document : Document
  position : Nat := 0
  /-- The saved positions, the latest first. -/
  marks : List Nat := []
  deriving DecidableEq, Repr

namespace Cursor

inductive Refusal where
  /-- There is nothing after the end of the stream. -/
  | atEnd
  /-- There is nothing in front of position 0. -/
  | atStart
  | noMark
  deriving DecidableEq, Repr

def Refusal.message : Refusal → String
  | atEnd => "end of stream reached, no more character to read"
  | atStart => "nothing to unread"
  | noMark => "no position has been saved, mark() must be called first"

/-- A refused move, with the snippet around the cursor. -/
structure Error where
  refusal : Refusal
  context : String
  deriving DecidableEq, Repr

def Error.message (e : Error) : String := e.refusal.message ++ "\n" ++ e.context

inductive Failure where
  | refused (error : Error)
  /-- A refusal was to be shown, and a sum in its snippet stopped the move. -/
  | overflow
  deriving DecidableEq, Repr

def ofDocument (document : Document) : Cursor := { document }

def place (cursor : Cursor) : Place := cursor.document.place cursor.position

variable (overflow : Overflow)

def draw (cursor : Cursor) (message : String) : Option String :=
  cursor.document.draw overflow message cursor.position

def drawAt (cursor : Cursor) (message : String) : Nat → Option (Except OutOfRange String) :=
  cursor.document.drawAt overflow message

/-- How a move fails that is refused where the cursor is. -/
def failure (refusal : Refusal) (cursor : Cursor) : Failure :=
  match cursor.draw overflow "" with
  | some context => .refused ⟨refusal, context⟩
  | none => .overflow

def refuse {α : Type} (refusal : Refusal) : EStateM Failure Cursor α := fun cursor =>
  .error (cursor.failure overflow refusal) cursor

/-! ## Moves -/

/-- Moves on by one and gives what stands there. The end of the stream can be read once. -/
def read : EStateM Failure Cursor Symbol := do
  let cursor ← get
  if cursor.position < cursor.document.endPosition then
    set { cursor with position := cursor.position + 1 }
    return cursor.document.symbol (cursor.position + 1)
  else
    refuse overflow .atEnd

def peek : EStateM Failure Cursor Symbol := do
  let cursor ← get
  if cursor.position + 1 ≤ cursor.document.endPosition then
    return cursor.document.symbol (cursor.position + 1)
  else
    refuse overflow .atEnd

def unread : EStateM Failure Cursor Unit := do
  let cursor ← get
  if cursor.position = 0 then
    refuse overflow .atStart
  else
    set { cursor with position := cursor.position - 1 }

/-- Moves back by one within the text, and stays on its first position. -/
def unreadWithin (cursor : Cursor) : Cursor :=
  if 1 < cursor.position then { cursor with position := cursor.position - 1 } else cursor

/-- The scalar value after the cursor, moving on to it. At the end there is none, though the cursor
may still move onto the end of the stream. The refusal to read any further is dropped, snippet and all,
once it has been drawn. -/
def next? : EStateM Failure Cursor (Option Char) := fun cursor =>
  match read overflow cursor with
  | .ok symbol cursor => .ok symbol.scalar? cursor
  | .error (.refused _) cursor => .ok none cursor
  | .error .overflow cursor => .error .overflow cursor

def take : (n : Nat) → EStateM Failure Cursor (List Char)
  | 0 => return []
  | n + 1 => do
    match ← next? overflow with
    | none => return []
    | some c => return c :: (← take n)

/-! ## Saved positions -/

def mark (cursor : Cursor) : Cursor := { cursor with marks := cursor.position :: cursor.marks }

/-- Goes back to the latest saved position and forgets it. -/
def reset : EStateM Failure Cursor Unit := do
  let cursor ← get
  match cursor.marks with
  | [] => refuse overflow .noMark
  | position :: marks => set { cursor with position, marks }

/-- Goes back to the earliest saved position, if there is one, and forgets all. -/
def resetAll (cursor : Cursor) : Cursor :=
  { cursor with position := cursor.marks.getLastD cursor.position, marks := [] }

def forgetMarks (cursor : Cursor) : Cursor := { cursor with marks := [] }

end Cursor

end UnicodeInput
