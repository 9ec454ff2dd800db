import UnicodeInput.Proofs.Document.Snippet
import UnicodeInput.Proofs.Document.Tables

/-! Answers from the tables of a document. Each answer is put together from accesses that may miss, from
differences that may be below zero and, where a number of lines is added, from sums that may not fit in a
word; one that fails leaves no answer. On the tables of a document none fails, and the answers are those of
the document. In the text the places go up from one position to the next, so that a place is that of one
position and the end is on the last line. -/
namespace UnicodeInput

/-- On a line further up, or further left on the same line. -/
def Place.Before (place other : Place) : Prop :=
  place.line < other.line ∨ place.line = other.line ∧ place.column < other.column

theorem Place.Before.trans {one other third : Place} (first : one.Before other)
    (second : other.Before third) : one.Before third := by
  unfold Before at *
  omega

theorem Place.Before.ne {place other : Place} (before : place.Before other) : place ≠ other := by
  rintro rfl
  unfold Before at before
  omega

theorem Place.Before.line_le {place other : Place} (before : place.Before other) :
    place.line ≤ other.line := by
  unfold Before at before
  omega

theorem Place.before_after (place : Place) (c : Char) : place.Before (place.after c) := by
  unfold Before after
  split
  · exact .inl (Nat.lt_succ_self _)
  · exact .inr ⟨rfl, Nat.lt_succ_self _⟩

theorem Place.line_after_le (place : Place) (c : Char) : (place.after c).line ≤ place.line + 1 := by
  unfold after
  split
  · exact Nat.le_refl _
  · exact Nat.le_succ _

namespace Document

open Codespace (lineFeed carriageReturn)

namespace Tables

/-! ## Answers -/

def checked {α : Type} (tables : Tables) (answer : Nat → Option α) (position : Nat) :
    Option (Except OutOfRange α) :=
  if position ≤ tables.endPosition then .ok <$> answer position
  else some (.error ⟨position, .inclusive tables.endPosition⟩)

/-- What stands at a position. Past the last scalar value, it is the end. -/
def symbol (tables : Tables) (position : Nat) : Symbol :=
  tables.scalars[position]?.elim .endOfText .scalar

def symbolAt (tables : Tables) (position : Nat) : Option (Except OutOfRange Symbol) :=
  tables.checked (fun position => some (tables.symbol position)) position

def lineAt (tables : Tables) (position : Nat) : Option (Except OutOfRange Nat) :=
  tables.checked (fun position => tables.lines[position]?) position

def columnAt (tables : Tables) (position : Nat) : Option (Except OutOfRange Nat) :=
  tables.checked (fun position => tables.columns[position]?) position

/-- The line of a position. Past the last position, it is that of the end. -/
def line (tables : Tables) (position : Nat) : Option Nat :=
  tables.lines[min position tables.endPosition]?

/-- The column of a position. Past the last position, it is that of the end. -/
def column (tables : Tables) (position : Nat) : Option Nat :=
  tables.columns[min position tables.endPosition]?

/-- How many scalar values the text has. -/
def size (tables : Tables) : Option Nat := tables.endPosition.psub 1

def content (tables : Tables) : Option (List Char) :=
  if 1 ≤ tables.scalars.size then some (tables.scalars.toList.drop 1) else none

def lineCount (tables : Tables) : Option Nat := tables.lines[tables.endPosition]?

def lastAbove (tables : Tables) (line : Nat) : (position : Nat) → Option (Option Nat)
  | 0 => some none
  | i + 1 => do
    if (← tables.lines[i]?) < line then return some i
    else tables.lastAbove line i

def contextStart (tables : Tables) (line position : Nat) : Option Nat := do
  if line ≤ (← Word.sum? tables.options.linesBefore 1) then return 1
  else
    match ← tables.lastAbove (← line.psub tables.options.linesBefore) position with
    | some i => return i + 1
    | none => return 1

/-- The scalar values from position `i` on, as long as they are on line `last` or above it, and the
position behind them. -/
def walk (tables : Tables) (last i : Nat) : Option (List Char × Nat) :=
  if i < tables.endPosition then do
    if (← tables.lines[i]?) ≤ last then
      let c ← tables.scalars[i]?
      let (rest, next) ← tables.walk last (i + 1)
      return (c :: rest, next)
    else return ([], i)
  else return ([], i)
termination_by tables.endPosition - i

/-- The line feed that is put in where the position before `next` holds another scalar value. -/
def closing (tables : Tables) (next : Nat) : Option (List Char) :=
  if 0 < next then do
    let c ← tables.scalars[(← next.psub 1)]?
    return if c ≠ lineFeed then [lineFeed] else []
  else return []

def snippetChars (tables : Tables) (message : List Char) (position : Nat) : Option (List Char) := do
  let position := min position tables.endPosition
  let line ← tables.lines[position]?
  let column ← tables.columns[position]?
  let last ← Word.sum? line tables.options.linesAfter
  let start ← tables.contextStart line position
  let (above, next) ← tables.walk line start
  let closing ← tables.closing next
  let (below, _) ← tables.walk last next
  return openLine (tables.options.filename.elim [] (fun name => headerLine (fileLine name)) ++
    headerLine message ++ above ++ closing ++ caretLine ⟨line, column⟩ ++ [lineFeed] ++ below)

/-- The snippet around a position. Past the last position, it is that of the end. -/
def snippet (tables : Tables) (message : String) (position : Nat) : Option String :=
  String.ofList <$> tables.snippetChars message.toList position

def snippetAt (tables : Tables) (message : String) (position : Nat) : Option (Except OutOfRange String) :=
  tables.checked (tables.snippet message) position

end Tables

/-! ## Entries -/

variable (document : Document)

theorem length_slots : document.slots.length = document.endPosition := by
  simp [slots, endPosition]

theorem getElem?_places {position : Nat} (inside : position ≤ document.endPosition) :
    document.places[position]? = some (document.place position) := by
  cases position with
  | zero => rfl
  | succ i =>
    change (document.cells.toList.map Cell.place ++ [document.endPlace])[i]? = _
    unfold endPosition at inside
    by_cases last : i = document.cells.size
    · subst last
      simp [place]
    · have text : i < document.cells.size := by omega
      simp [place, List.getElem?_append_left, text]

theorem exists_slot {position : Nat} (inside : position < document.endPosition) :
    ∃ c, document.slots[position]? = some ⟨c, document.place position⟩ ∧
      document.tables.scalars[position]? = some c ∧ document.symbol position = .scalar c := by
  cases position with
  | zero => exact ⟨lineFeed, rfl, rfl, rfl⟩
  | succ i =>
    have text : i < document.cells.size := by
      unfold endPosition at inside
      omega
    have slot : document.slots[i + 1]? = some ⟨document.cells[i].scalar, document.place (i + 1)⟩ := by
      simp [slots, place, text]
    exact ⟨document.cells[i].scalar, slot, by simp [tables, slot], by simp [symbol, text]⟩

theorem getElem?_lines {position : Nat} (inside : position ≤ document.endPosition) :
    document.tables.lines[position]? = some (document.place position).line := by
  simp [tables, document.getElem?_places inside]

theorem getElem?_columns {position : Nat} (inside : position ≤ document.endPosition) :
    document.tables.columns[position]? = some (document.place position).column := by
  simp [tables, document.getElem?_places inside]

/-! ## Walks -/

theorem lastAbove_eq (line : Nat) {position : Nat} (inside : position ≤ document.endPosition) :
    document.tables.lastAbove line position = some (document.lastAbove? line position) := by
  induction position with
  | zero => rfl
  | succ i ih =>
    rw [Tables.lastAbove, lastAbove?, document.getElem?_lines (by omega), Option.bind_eq_bind,
      Option.bind_some, ih (by omega)]
    split <;> rfl

theorem cellsUpTo_of_lt {i : Nat} (inside : i < document.endPosition) (last : Nat) :
    ∃ c, document.tables.scalars[i]? = some c ∧
      document.cellsUpTo i last =
        if (document.place i).line ≤ last then
          ⟨c, document.place i⟩ :: document.cellsUpTo (i + 1) last
        else [] := by
  obtain ⟨c, slot, scalar, -⟩ := document.exists_slot inside
  refine ⟨c, scalar, ?_⟩
  obtain ⟨short, there⟩ := List.getElem?_eq_some_iff.mp slot
  rw [cellsUpTo, List.drop_eq_getElem_cons short, there, List.takeWhile_cons]
  simp [cellsUpTo]

theorem walk_eq (last i : Nat) :
    document.tables.walk last i =
      some ((document.cellsUpTo i last).map Cell.scalar, i + (document.cellsUpTo i last).length) := by
  -- On how many positions there are from `i` to the end.
  induction left : document.endPosition - i generalizing i with
  | zero =>
    have behind : ¬ i < document.tables.endPosition := by
      change ¬ i < document.endPosition
      omega
    have none : document.cellsUpTo i last = [] := by
      rw [cellsUpTo, List.drop_eq_nil_of_le (by rw [length_slots]; omega), List.takeWhile_nil]
    rw [Tables.walk, if_neg behind, none]
    rfl
  | succ n ih =>
    have inside : i < document.endPosition := by omega
    obtain ⟨c, scalar, taken⟩ := document.cellsUpTo_of_lt inside last
    rw [Tables.walk, if_pos (show i < document.tables.endPosition from inside),
      document.getElem?_lines (Nat.le_of_lt inside), Option.bind_eq_bind, Option.bind_some, taken]
    by_cases low : (document.place i).line ≤ last
    · rw [if_pos low, if_pos low, scalar, Option.bind_eq_bind, Option.bind_some, ih (i + 1) (by omega)]
      simp [Nat.add_assoc, Nat.add_comm]
    · rw [if_neg low, if_neg low]
      rfl

theorem contextStart_pos (line position : Nat) : 0 < document.contextStart line position := by
  unfold contextStart
  split
  · exact Nat.zero_lt_one
  split
  · exact Nat.zero_lt_succ _
  · exact Nat.zero_lt_one

/-- The walk back ends in front of the position it begins at. -/
theorem contextStart_le {position : Nat} (inside : position ≤ document.endPosition) (line : Nat) :
    document.contextStart line position ≤ document.endPosition := by
  have first : 1 ≤ document.endPosition := Nat.le_add_left 1 _
  unfold contextStart
  split
  · exact first
  split
  next found =>
    obtain ⟨before, -⟩ := lastAbove?_eq_some found
    omega
  · exact first

theorem contextStart_eq {position : Nat} (inside : position ≤ document.endPosition) (line : Nat)
    (fits : document.options.linesBefore + 1 < Word.limit) :
    document.tables.contextStart line position = some (document.contextStart line position) := by
  have near : Word.sum? document.tables.options.linesBefore 1 =
      some (document.options.linesBefore + 1) := if_pos fits
  rw [Tables.contextStart, contextStart, near, Option.bind_eq_bind, Option.bind_some]
  by_cases above : line ≤ document.options.linesBefore + 1
  · rw [if_pos above, if_pos above]
    rfl
  · have first : line.psub document.tables.options.linesBefore =
        some (line - document.options.linesBefore) :=
      Nat.psub_eq_sub (show document.options.linesBefore ≤ line by omega)
    rw [if_neg above, if_neg above, first, Option.bind_eq_bind, Option.bind_some,
      document.lastAbove_eq _ inside, Option.bind_some]
    cases document.lastAbove? (line - document.options.linesBefore) position <;> rfl

theorem length_cellsUpTo_le {start : Nat} (inside : start ≤ document.endPosition) (last : Nat) :
    start + (document.cellsUpTo start last).length ≤ document.endPosition := by
  have taken := (List.takeWhile_prefix (fun cell : Cell => decide (cell.place.line ≤ last))
    (l := document.slots.drop start)).length_le
  rw [List.length_drop, length_slots] at taken
  unfold cellsUpTo
  omega

theorem closing_eq {next : Nat} (positive : 0 < next) (inside : next ≤ document.endPosition) :
    document.tables.closing next =
      some (if 0 < next ∧ document.symbol (next - 1) ≠ .scalar lineFeed then [lineFeed] else []) := by
  obtain ⟨c, -, scalar, symbol⟩ := document.exists_slot (show next - 1 < document.endPosition by omega)
  rw [Tables.closing, if_pos positive, Nat.psub_eq_sub positive, Option.bind_eq_bind,
    Option.bind_some, scalar, symbol]
  simp [positive]

theorem snippetChars_eq (message : List Char) (position : Nat)
    (above : document.options.linesBefore + 1 < Word.limit)
    (below : (document.place position).line + document.options.linesAfter <
      Word.limit) :
    document.tables.snippetChars message position = some (document.snippetChars message position) := by
  have inside : min position document.endPosition ≤ document.endPosition := Nat.min_le_right _ _
  rw [← place_min] at below
  rw [Tables.snippetChars, snippetChars, show document.tables.endPosition = document.endPosition from rfl]
  generalize min position document.endPosition = position at inside below ⊢
  have last : Word.sum? (document.place position).line document.tables.options.linesAfter =
      some ((document.place position).line + document.options.linesAfter) := if_pos below
  -- The walk up to the caret begins behind position 0 and not behind the end, so there is an entry in
  -- front of where it stops.
  have start := document.contextStart_pos (document.place position).line position
  have behind := document.length_cellsUpTo_le
    (document.contextStart_le inside (document.place position).line) (document.place position).line
  have closing := document.closing_eq (Nat.lt_of_lt_of_le start (Nat.le_add_right _ _)) behind
  simp only [document.getElem?_lines inside, document.getElem?_columns inside, last,
    document.contextStart_eq inside _ above, walk_eq, closing, Option.bind_eq_bind, Option.bind_some]
  rfl

theorem checked_eq {α : Type} {answer : Nat → Option α} {f : Nat → α} {position : Nat}
    (same : position ≤ document.endPosition → answer position = some (f position)) :
    document.tables.checked answer position = some (document.checked f position) := by
  rw [Tables.checked, checked, show document.tables.endPosition = document.endPosition from rfl]
  by_cases inside : position ≤ document.endPosition
  · rw [if_pos inside, if_pos inside, same inside]
    rfl
  · rw [if_neg inside, if_neg inside]

theorem symbol_tables (position : Nat) : document.tables.symbol position = document.symbol position := by
  cases position with
  | zero => rfl
  | succ i =>
    by_cases text : i < document.cells.size
    · simp [Tables.symbol, tables, slots, symbol, text]
    · simp [Tables.symbol, tables, slots, symbol, text]

theorem content_tables : document.tables.content = some document.content := by
  have entries : 1 ≤ document.tables.scalars.size := by simp [tables, slots]
  rw [Tables.content, if_pos entries]
  simp [tables, slots, content]

/-! ## What the tables hold and answer -/

/-- The tables have an entry for each position, but for a scalar value at the end. -/
structure Tables.Complete (tables : Tables) : Prop where
  endPosition_pos : 1 ≤ tables.endPosition
  size_scalars : tables.scalars.size = tables.endPosition
  size_lines : tables.lines.size = tables.endPosition + 1
  size_columns : tables.columns.size = tables.endPosition + 1

theorem complete_tables : document.tables.Complete where
  endPosition_pos := Nat.le_add_left 1 _
  size_scalars := by simp [tables, length_slots]
  size_lines := by simp [tables, places, length_slots]
  size_columns := by simp [tables, places, length_slots]

/-- The places of a document go up, line by line. -/
structure Ascends (document : Document) : Prop where
  line_le_line_succ : ∀ position < document.endPosition,
    (document.place position).line ≤ (document.place (position + 1)).line
  line_succ_le : ∀ position < document.endPosition,
    (document.place (position + 1)).line ≤ (document.place position).line + 1
  before : ∀ i j, i < j → j ≤ document.endPosition → (document.place i).Before (document.place j)
  inj : ∀ i j, i ≤ document.endPosition → j ≤ document.endPosition →
    document.place i = document.place j → i = j
  line_le_lineCount : ∀ position, (document.place position).line ≤ document.lineCount
  line_end : (document.place document.endPosition).line = document.lineCount

theorem line_end : (document.place document.endPosition).line = document.lineCount := by
  simp [place, endPosition, lineCount]

theorem Built.ascends {document : Document} (built : Built document) : document.Ascends := by
  obtain ⟨text, laid⟩ := built.exists_laid
  obtain ⟨eq_laidOut, -, -⟩ := laid
  have next : ∀ position < document.endPosition,
      ∃ c, document.place (position + 1) = (document.place position).after c := by
    rw [eq_laidOut]
    intro position inside
    obtain ⟨c, stands⟩ := exists_symbol inside
    exact ⟨c, place_succ stands⟩
  have before : ∀ i j, i < j → j ≤ document.endPosition →
      (document.place i).Before (document.place j) := by
    intro i j order inside
    induction j, order using Nat.le_induction with
    | base =>
      obtain ⟨c, follows⟩ := next i inside
      exact follows ▸ Place.before_after _ c
    | succ j order ih =>
      obtain ⟨c, follows⟩ := next j inside
      exact (ih (Nat.le_of_lt inside)).trans (follows ▸ Place.before_after _ c)
  refine ⟨fun position inside => ?_, fun position inside => ?_, before, fun i j inside inside' same => ?_,
    fun position => ?_, document.line_end⟩
  · obtain ⟨c, follows⟩ := next position inside
    exact follows ▸ line_le_line_after _ c
  · obtain ⟨c, follows⟩ := next position inside
    exact follows ▸ Place.line_after_le _ c
  · rcases Nat.lt_trichotomy i j with order | equal | order
    · exact absurd same (before i j order inside').ne
    · exact equal
    · exact absurd same.symm (before j i order inside).ne
  · rw [← place_min, ← line_end]
    have inside : min position document.endPosition ≤ document.endPosition := Nat.min_le_right _ _
    rcases Nat.lt_or_eq_of_le inside with order | equal
    · exact (before _ _ order (Nat.le_refl _)).line_le
    · rw [equal]

/-- No access misses, and the answers are those of the document. The snippets are those for which the
numbers of lines can be added in words. Only they ask where the lines above the caret begin, and only for
positions of the document. -/
structure Tables.Serves (tables : Tables) (document : Document) : Prop where
  symbolAt : ∀ position, tables.symbolAt position = some (document.symbolAt position)
  lineAt : ∀ position, tables.lineAt position = some (document.lineAt position)
  columnAt : ∀ position, tables.columnAt position = some (document.columnAt position)
  symbol : ∀ position, tables.symbol position = document.symbol position
  line : ∀ position, tables.line position = some (document.place position).line
  column : ∀ position, tables.column position = some (document.place position).column
  size : tables.size = some document.size
  content : tables.content = some document.content
  lineCount : tables.lineCount = some document.lineCount
  contextStart : ∀ line position, position ≤ document.endPosition →
    document.options.linesBefore + 1 < Word.limit →
    tables.contextStart line position = some (document.contextStart line position)
  snippet : ∀ message position,
    document.options.linesBefore + 1 < Word.limit →
    (document.place position).line + document.options.linesAfter < Word.limit →
    tables.snippet message position = some (document.snippet message position)
  snippetAt : ∀ message position,
    document.options.linesBefore + 1 < Word.limit →
    (document.place position).line + document.options.linesAfter < Word.limit →
    tables.snippetAt message position = some (document.snippetAt message position)

theorem serves_tables : document.tables.Serves document where
  symbolAt _ := document.checked_eq fun _ => congrArg some (document.symbol_tables _)
  lineAt _ := document.checked_eq fun inside => document.getElem?_lines inside
  columnAt _ := document.checked_eq fun inside => document.getElem?_columns inside
  symbol := document.symbol_tables
  line position := by
    rw [← place_min]
    exact document.getElem?_lines (Nat.min_le_right _ _)
  column position := by
    rw [← place_min]
    exact document.getElem?_columns (Nat.min_le_right _ _)
  size := Nat.psub_eq_sub (Nat.le_add_left 1 _)
  content := document.content_tables
  lineCount := by
    rw [← line_end]
    exact document.getElem?_lines (Nat.le_refl _)
  contextStart line _ inside fits := document.contextStart_eq inside line fits
  snippet message position above below := by
    rw [Tables.snippet, document.snippetChars_eq message.toList position above below]
    rfl
  snippetAt message position above below := by
    refine document.checked_eq fun _ => ?_
    rw [Tables.snippet, document.snippetChars_eq message.toList position above below]
    rfl

/-- Every way to make a document makes its tables, or fails as it does, and no access to tables under way
misses. The tables of a document have an entry for each position. Its places go up from one position to
the next, by one line at most, and no access to its tables misses: they answer as the document does. -/
theorem tables_serve :
    (∀ scalars options, Tables.ofScalars scalars options =
      (fun document => some document.tables) <$> ofScalars scalars options) ∧
    (∀ text options, Tables.ofText text options =
      (fun document => some document.tables) <$> ofText text options) ∧
    (∀ encoding bytes options, Tables.ofBytes encoding bytes options =
      (fun document => some document.tables) <$> ofBytes encoding bytes options) ∧
    (∀ (σ : Type) [ByteSource σ] (encoding : Encoding) (options : Options) (source : σ),
      Tables.ofSource encoding options source =
        ((fun document => some document.tables) <$> ofSource encoding options) source) ∧
    ∀ document, Built document →
      document.tables.Complete ∧ document.Ascends ∧ document.tables.Serves document :=
  ⟨Tables.ofScalars_eq, Tables.ofText_eq, Tables.ofBytes_eq,
    fun _ _ encoding options source => Tables.ofSource_eq encoding options source,
    fun document built => ⟨document.complete_tables, built.ascends, document.serves_tables⟩⟩

/-- The second of two lines, and the end where there were line terminators only and position 0 is left. -/
theorem tables_serve_two_lines :
    (Built (laidOut ['a', lineFeed, 'b'] {}) ∧
      (laidOut ['a', lineFeed, 'b'] {}).tables.lines.size = 5 ∧
      (laidOut ['a', lineFeed, 'b'] {}).tables.snippetAt "m" 3 = some (.ok "m\na\nb\n^__ Line 2")) ∧
    Built (laidOut [] {}) ∧ (laidOut [] {}).tables.scalars.size = 1 ∧
      (laidOut [] {}).tables.snippetAt "" 1 = some (.ok "^__ Line 1") := by
  have built : Built (laidOut ['a', lineFeed, 'b'] {}) :=
    .ofScalars ((document_foldl_add ['a', lineFeed, 'b'] {}).trans rfl)
  have bare : Built (laidOut [] {}) :=
    .ofScalars ((document_foldl_add [carriageReturn, lineFeed, carriageReturn] {}).trans rfl)
  obtain ⟨-, -, -, -, each⟩ := tables_serve
  obtain ⟨complete, -, serves⟩ := each _ built
  obtain ⟨complete', -, serves'⟩ := each _ bare
  exact ⟨⟨built, complete.size_lines, (serves.snippetAt "m" 3 (by decide) (by decide)).trans rfl⟩,
    bare, complete'.size_scalars, (serves'.snippetAt "" 1 (by decide) (by decide)).trans rfl⟩

end Document

end UnicodeInput
