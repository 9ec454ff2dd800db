import UnicodeInput.Bounds
import UnicodeInput.Document.Options
import UnicodeInput.Document.Place

/-! Documents: text with a place for every scalar value.

Position 0 is in front of the text and holds a line feed on line 0, so that the text begins a line.
The text takes the positions from 1 on. The position after it is the end of the stream, and the
last one there is. -/
namespace UnicodeInput

/-- A text laid out in lines. -/
structure Document where
  cells : Array Cell
  endPlace : Place
  options : Document.Options
  deriving DecidableEq, Repr

namespace Document

def endPosition (document : Document) : Nat := document.cells.size + 1

def size (document : Document) : Nat := document.cells.size

/-- Whether there is no text but line feeds that were dropped. -/
def isEmpty (document : Document) : Bool := document.cells.isEmpty

def content (document : Document) : List Char := document.cells.toList.map Cell.scalar

def lineCount (document : Document) : Nat := document.endPlace.line

/-- What stands at a position. Past the last position, it is the end all the same. -/
def symbol (document : Document) : (position : Nat) → Symbol
  | 0 => .scalar Codespace.lineFeed
  | i + 1 =>
    match document.cells[i]? with
    | some cell => .scalar cell.scalar
    | none => .endOfText

/-- The place of a position. Past the last position, it is that of the end. -/
def place (document : Document) : (position : Nat) → Place
  | 0 => Place.origin
  | i + 1 =>
    match document.cells[i]? with
    | some cell => cell.place
    | none => document.endPlace

/-- Answers with `f` at a position of the document. -/
def checked {α : Type} (document : Document) (f : Nat → α) (position : Nat) :
    Except OutOfRange α :=
  if position ≤ document.endPosition then .ok (f position)
  else .error ⟨position, .inclusive document.endPosition⟩

def symbolAt (document : Document) : Nat → Except OutOfRange Symbol :=
  document.checked document.symbol

def lineAt (document : Document) : Nat → Except OutOfRange Nat :=
  document.checked fun position => (document.place position).line

def columnAt (document : Document) : Nat → Except OutOfRange Nat :=
  document.checked fun position => (document.place position).column

end Document

end UnicodeInput
