/-! How a document is shown in diagnostics. The content never depends on it. -/
namespace UnicodeInput.Document

/-- The file a document came from and how many lines to show around a position. -/
structure Options where
  filename : Option String := none
  /-- Whole lines above the line of the position. -/
  linesBefore : Nat := 1
  linesAfter : Nat := 1
  deriving DecidableEq, Repr

namespace Options

def named (filename : String) : Options := { filename }

def withLines (options : Options) (before after : Nat) : Options :=
  { options with linesBefore := before, linesAfter := after }

/-- The options in effect: a document always shows one line on each side at least. -/
def effective (options : Options) : Options :=
  { options with
    linesBefore := max options.linesBefore 1
    linesAfter := max options.linesAfter 1 }

end Options

end UnicodeInput.Document
