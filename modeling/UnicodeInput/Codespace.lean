/-! The Unicode codespace: which integers are code points, and of what kind.

Code points are plain natural numbers here, so each question can be asked of any number, inside
the codespace or not. `Char` is the type of the scalar values, and `scalar?` is the way into it. -/
namespace UnicodeInput.Codespace

def last : Nat := 0x10FFFF

def size : Nat := 0x110000

/-- How many code points are noncharacters: 32 in one block, and two in each of 17 planes. -/
def noncharacterCount : Nat := 66

def privateUseCount : Nat := 137468

/-- How many code points are scalar values, that is, no surrogates. -/
def scalarCount : Nat := 1112064

def isHighSurrogate (v : Nat) : Bool := 0xD800 ≤ v && v ≤ 0xDBFF

def isLowSurrogate (v : Nat) : Bool := 0xDC00 ≤ v && v ≤ 0xDFFF

/-- Half of a UTF-16 pair, and no character by itself. -/
def isSurrogate (v : Nat) : Bool := 0xD800 ≤ v && v ≤ 0xDFFF

/-- A code point that will never be a character: one block, and the end of each plane. -/
def isNoncharacter (v : Nat) : Bool :=
  (0xFDD0 ≤ v && v ≤ 0xFDEF) || (v ≤ last && 0xFFFE ≤ v % 0x10000)

def isPrivateUse (v : Nat) : Bool :=
  (0xE000 ≤ v && v ≤ 0xF8FF) || (0xF0000 ≤ v && v ≤ 0xFFFFD) || (0x100000 ≤ v && v ≤ 0x10FFFD)

/-- A code point that an encoding can carry. -/
def isScalar (v : Nat) : Bool := v ≤ last && !isSurrogate v

def scalar? (v : Nat) : Option Char :=
  if h : v.isValidChar then some (Char.ofNatAux v h) else none

/-- The one line terminator of a document. -/
def lineFeed : Char := '\n'

/-- A line terminator of its own, or the first half of one. -/
def carriageReturn : Char := '\r'

/-- The scalar whose encoded form is the byte-order mark. -/
def markScalar : Char := '\uFEFF'

/-- What stands for bytes that decode to nothing. -/
def replacement : Char := '\uFFFD'

end UnicodeInput.Codespace
