import UnicodeInput.Codec.Whole
import UnicodeInput.Document

/-! Laying text out as a document, one scalar value at a time.

A carriage return is laid out as a line feed, and a line feed right after it is passed over: the
pair is one line terminator. At the end the line feeds that nothing follows are dropped. -/
namespace UnicodeInput.Document

inductive BuildError where
  /-- There was no scalar value at all. -/
  | noText (filename : Option String)
  | undecodable (error : DecodeError)
  deriving DecidableEq, Repr

def BuildError.message : BuildError → String
  | noText none => "this stream is empty"
  | noText (some filename) => "this stream is empty (" ++ filename ++ ")"
  | undecodable error => error.message

/-- A document under way. -/
structure Layout where
  cells : Array Cell := #[]
  /-- Where the next scalar value goes. -/
  next : Place := Place.first
  /-- Whether the last scalar value was a carriage return. -/
  afterReturn : Bool := false
  fed : Bool := false
  deriving DecidableEq, Repr

namespace Layout

def put (layout : Layout) (c : Char) : Layout :=
  { layout with
    cells := layout.cells.push ⟨c, layout.next⟩
    next := layout.next.after c }

def add (layout : Layout) (c : Char) : Layout :=
  let done : Layout := { layout with afterReturn := c == Codespace.carriageReturn, fed := true }
  if c = Codespace.lineFeed ∧ layout.afterReturn then done
  else if c = Codespace.carriageReturn then done.put Codespace.lineFeed
  else done.put c

/-- The place after the last of some cells. -/
def placeAfter (cells : Array Cell) : Place :=
  match cells.back? with
  | some cell => cell.place.after cell.scalar
  | none => Place.first

def document (layout : Layout) (options : Options) : Except BuildError Document :=
  if layout.fed then
    let cells := layout.cells.popWhile fun cell => cell.scalar == Codespace.lineFeed
    .ok { cells, endPlace := placeAfter cells, options := options.effective }
  else
    .error (.noText options.filename)

end Layout

def ofScalars (scalars : List Char) (options : Options) : Except BuildError Document :=
  (scalars.foldl Layout.add {}).document options

def ofText (text : String) (options : Options) : Except BuildError Document :=
  ofScalars text.toList options

/-- The document with the text that the rest of a source encodes. A mark is text like any other. -/
def ofSource {σ : Type} [ByteSource σ] (encoding : Encoding) (options : Options) :
    EStateM BuildError σ Document := do
  let layout ← EStateM.adaptExcept .undecodable (Codec.foldScalars encoding Layout.add {})
  match layout.document options with
  | .ok document => return document
  | .error error => throw error

def ofBytes (encoding : Encoding) (bytes : List UInt8) (options : Options) :
    Except BuildError Document :=
  match ofSource encoding options (MemorySource.ofBytes bytes) with
  | .ok document _ => .ok document
  | .error error _ => .error error

end UnicodeInput.Document
