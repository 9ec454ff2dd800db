import UnicodeInput.Document
import UnicodeInput.Word

/-! Snippets: the lines around a position, for diagnostics.

A snippet names the file and gives the message, then shows the lines up to that of the position, a
caret under the position with the line's number, and the lines after it. The lines are found by
walking the positions: back to where the window begins, and from there on while the line's number
is not too high. The numbers of the first and the last line are computed in words, so with more lines
asked for than a word can count a snippet may fail to be drawn, or show another window. -/
namespace UnicodeInput.Document

/-- A line by itself, if there is one to show. -/
def headerLine : List Char → List Char
  | [] => []
  | line => line ++ [Codespace.lineFeed]

/-- What the positions before the end hold, the one in front of the text included. -/
def slots (document : Document) : List Cell :=
  ⟨Codespace.lineFeed, Place.origin⟩ :: document.cells.toList

/-- The cells from position `start` on, as long as they are on line `last` or above it. -/
def cellsUpTo (document : Document) (start last : Nat) : List Cell :=
  (document.slots.drop start).takeWhile fun cell => cell.place.line ≤ last

def lastAbove? (document : Document) (line : Nat) : (position : Nat) → Option Nat
  | 0 => none
  | i + 1 => if (document.place i).line < line then some i else document.lastAbove? line i

/-- The text without the one line feed that it may end in. -/
def openLine (text : List Char) : List Char :=
  if text.getLast? = some Codespace.lineFeed then text.dropLast else text

def caretLine (place : Place) : List Char :=
  List.replicate (place.column - 1) ' ' ++ "^__ Line ".toList ++ (Nat.repr place.line).toList

def fileLine (name : String) : List Char := "In file ".toList ++ name.toList

/-- The snippet around a place, with a window from position `start` to the end of line `last`. -/
def windowChars (document : Document) (message : List Char) (place : Place) (start last : Nat) :
    List Char :=
  let above := document.cellsUpTo start place.line
  let next := start + above.length
  -- The last line of the text has no line feed of its own.
  let closing :=
    if 0 < next ∧ document.symbol (next - 1) ≠ .scalar Codespace.lineFeed then
      [Codespace.lineFeed]
    else []
  let below := document.cellsUpTo next last
  openLine (document.options.filename.elim [] (fun name => headerLine (fileLine name)) ++
    headerLine message ++ above.map Cell.scalar ++ closing ++ caretLine place ++
    [Codespace.lineFeed] ++ below.map Cell.scalar)

/-! ## Drawing -/

variable (overflow : Overflow) (document : Document)

/-- Where the lines above the caret begin, for a position on `line`. -/
def windowStart (line position : Nat) : Option Nat := do
  if line ≤ (← overflow.add document.options.linesBefore 1) then return 1
  else
    match document.lastAbove? (← overflow.sub line document.options.linesBefore) position with
    | some i => return i + 1
    | none => return 1

def drawChars (message : List Char) (position : Nat) : Option (List Char) := do
  let position := min position document.endPosition
  let place := document.place position
  let last ← overflow.add place.line document.options.linesAfter
  let start ← document.windowStart overflow place.line position
  return document.windowChars message place start last

/-- The snippet around a position. Past the last position, it is that of the end. -/
def draw (message : String) (position : Nat) : Option String :=
  String.ofList <$> document.drawChars overflow message.toList position

def drawAt (message : String) (position : Nat) : Option (Except OutOfRange String) :=
  if position ≤ document.endPosition then .ok <$> document.draw overflow message position
  else some (.error ⟨position, .inclusive document.endPosition⟩)

end UnicodeInput.Document
