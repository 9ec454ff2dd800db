import UnicodeInput.ByteOrder.Lemmas
import UnicodeInput.Codespace.Lemmas
import UnicodeInput.Encoding.Label
import UnicodeInput.Source.Stream
import UnicodeInput.TextBuffer.Storage
import UnicodeInput.Document.Layout
import UnicodeInput.Cursor
import UnicodeInput.Structured.Settings
import UnicodeInput.Proofs.Codec.Whole
import UnicodeInput.Proofs.Document.Layout
import UnicodeInput.Proofs.Document.Built
import UnicodeInput.Proofs.Document.Lines
import UnicodeInput.Proofs.Document.Snippet
import UnicodeInput.Proofs.Codec.Fault
import UnicodeInput.Proofs.Codec.Run
import UnicodeInput.Proofs.Codec.Transcode
import UnicodeInput.Proofs.Codec.Detection
import UnicodeInput.Proofs.Codec.OptionalMark
import UnicodeInput.Proofs.Codec.Numbers
import UnicodeInput.Proofs.Codec.Persists
import UnicodeInput.Proofs.Codec.Units
import UnicodeInput.Proofs.Codec.Outcome
import UnicodeInput.Proofs.Codec.Lossy
import UnicodeInput.Proofs.Codec.Recovery
import UnicodeInput.Proofs.Cursor.Moves
import UnicodeInput.Proofs.Document.Routes
import UnicodeInput.Proofs.Source.Calls
import UnicodeInput.Proofs.Source.MemoryLike
import UnicodeInput.Proofs.Source.Delivery
import UnicodeInput.Proofs.Source.Lookahead
import UnicodeInput.Proofs.Cursor.Bounds
import UnicodeInput.Proofs.Cursor.Backtrack
import UnicodeInput.Proofs.Cursor.Traversal
import UnicodeInput.Proofs.Document.Ending
import UnicodeInput.Proofs.Document.Canonical
import UnicodeInput.Proofs.Document.Marked
import UnicodeInput.Proofs.Source.Position
import UnicodeInput.Proofs.TextBuffer
import UnicodeInput.Proofs.TextBuffer.Storage
import UnicodeInput.Proofs.Codec.Progress
import UnicodeInput.Proofs.Codec.GivenBack
import UnicodeInput.Proofs.Codec.Mark
import UnicodeInput.Proofs.Codec.Mirror
import UnicodeInput.Proofs.Encoding.Label
import UnicodeInput.Proofs.Document.Access
