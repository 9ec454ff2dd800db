import UnicodeInput.Codespace

/-! Lines and columns, and the cells of a document. -/
namespace UnicodeInput

/-- A line and a column. Those of a text are counted from one. -/
structure Place where
  line : Nat
  column : Nat
  deriving DecidableEq, Repr

namespace Place

/-- The place in front of a document. -/
def origin : Place := ⟨0, 0⟩

def after (place : Place) (c : Char) : Place :=
  if c = Codespace.lineFeed then ⟨place.line + 1, 1⟩ else ⟨place.line, place.column + 1⟩

/-- The first place of a document, as if a line feed stood in front of it. -/
def first : Place := origin.after Codespace.lineFeed

end Place

structure Cell where
  scalar : Char
  place : Place
  deriving DecidableEq, Repr

/-- What can be read at a position: a scalar value, or the end once all are read. -/
inductive Symbol where
  | scalar (c : Char)
  | endOfText
  deriving DecidableEq, Repr

namespace Symbol

/-- The number that stands for the end. -/
def endNumber : Int := -1

def toInt : Symbol → Int
  | scalar c => c.toNat
  | endOfText => endNumber

def scalar? : Symbol → Option Char
  | scalar c => some c
  | endOfText => none

def isEnd : Symbol → Bool
  | scalar _ => false
  | endOfText => true

def isScalar (symbol : Symbol) (c : Char) : Bool := symbol.scalar? == some c

end Symbol

end UnicodeInput
