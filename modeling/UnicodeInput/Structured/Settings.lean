import UnicodeInput.Document.Options
import UnicodeInput.Encoding
import UnicodeInput.Structured.Value

/-! Encodings and document options as structured values.

Names are exact here, unlike labels. What does not fit is refused as a whole. -/
namespace UnicodeInput

open Structured

def Encoding.tag : Encoding → String
  | utf8 => "utf8"
  | utf8Bom => "utf8-bom"
  | utf16 .big => "utf16-be"
  | utf16 .little => "utf16-le"
  | utf32 .big => "utf32-be"
  | utf32 .little => "utf32-le"

def Encoding.ofTag? (tag : String) : Option Encoding :=
  all.find? fun encoding => encoding.tag == tag

def Encoding.toValue (encoding : Encoding) : Value := .text encoding.tag

/-- Reads an encoding: its name, or a record with the name as its one field and nothing in it. -/
def Encoding.ofValue? : Value → Option Encoding
  | .text tag => ofTag? tag
  | .record [(tag, .null)] => ofTag? tag
  | _ => none

namespace Document.Options

def filenameKey : String := "filename"

def linesBeforeKey : String := "context_before"

def linesAfterKey : String := "context_after"

def toValue (options : Options) : Value :=
  .record [(filenameKey, .ofText? options.filename), (linesBeforeKey, .ofCount options.linesBefore),
    (linesAfterKey, .ofCount options.linesAfter)]

/-- Reads a part with `read`, or takes the default where it is missing. -/
def part {α : Type} (read : Value → Option α) (default : α) : Option Value → Option α
  | none => some default
  | some value => read value

/-- Reads the three parts. A number of lines is kept as it is written, zero too. -/
def ofParts? (filename linesBefore linesAfter : Option Value) : Option Options := do
  let default : Options := {}
  return {
    filename := ← part Value.textOrNull? default.filename filename
    linesBefore := ← part Value.count? default.linesBefore linesBefore
    linesAfter := ← part Value.count? default.linesAfter linesAfter }

/-- Reads options: a record, whose other fields do not matter, or a list of the parts in order. -/
def ofValue? : Value → Option Options
  | .record fields =>
    ofParts? (fields.lookup filenameKey) (fields.lookup linesBeforeKey)
      (fields.lookup linesAfterKey)
  | .list items => if items.length ≤ 3 then ofParts? items[0]? items[1]? items[2]? else none
  | _ => none

end Document.Options

end UnicodeInput
