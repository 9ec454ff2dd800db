import UnicodeInput.Cursor

/-! Moves of a cursor as data, so that whole runs of them can be spoken of. A move is answered, and a
failure is an answer too: the run goes on from the cursor that the failed move left. -/
namespace UnicodeInput.Cursor

inductive Move where
  | read
  | peek
  | unread
  | unreadWithin
  | next
  | mark
  | reset
  | resetAll
  | forgetMarks
  deriving DecidableEq, Repr

inductive Reply where
  | symbol (symbol : Symbol)
  | scalar (c : Option Char)
  | done
  | failed (failure : Failure)
  deriving DecidableEq, Repr

def replyWith {α : Type} (reply : α → Reply) (action : EStateM Failure Cursor α) (cursor : Cursor) :
    Reply × Cursor :=
  match action cursor with
  | .ok a cursor => (reply a, cursor)
  | .error e cursor => (.failed e, cursor)

variable (overflow : Overflow)

def move : Move → Cursor → Reply × Cursor
  | .read, cursor => replyWith .symbol (read overflow) cursor
  | .peek, cursor => replyWith .symbol (peek overflow) cursor
  | .unread, cursor => replyWith (fun _ => .done) (unread overflow) cursor
  | .unreadWithin, cursor => (.done, cursor.unreadWithin)
  | .next, cursor => replyWith .scalar (next? overflow) cursor
  | .mark, cursor => (.done, cursor.mark)
  | .reset, cursor => replyWith (fun _ => .done) (reset overflow) cursor
  | .resetAll, cursor => (.done, cursor.resetAll)
  | .forgetMarks, cursor => (.done, cursor.forgetMarks)

def run : List Move → Cursor → List Reply × Cursor
  | [], cursor => ([], cursor)
  | first :: moves, cursor =>
    let (reply, cursor) := move overflow first cursor
    let (replies, cursor) := run moves cursor
    (reply :: replies, cursor)

end UnicodeInput.Cursor
