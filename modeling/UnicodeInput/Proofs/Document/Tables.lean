import Mathlib.Data.Nat.PSub
import UnicodeInput.Document.Snippet
import UnicodeInput.Proofs.Document.Built

/-! Documents in memory. A document can be kept in three tables by position: what stands there, its line and
its column. The end of the stream has a line and a column and no scalar value, so the tables are not of one
length. They are filled side by side, cut each by itself at the end, and given the place of the end. Every
access to a table is one that may miss, and a program in which one misses gives no tables at all. What is
shown here is that none does: each way to make a document makes its tables too, or fails as it does. -/
namespace UnicodeInput

namespace Codec

section Folds

variable {σ β γ : Type} [ByteSource σ] {f : β → Char → β} {g : γ → Char → γ}

theorem Decoder.foldUpTo_map (holds : β → Prop) (image : β → γ) (keeps : ∀ acc c, holds acc → holds (f acc c))
    (step : ∀ acc c, holds acc → g (image acc) c = image (f acc c)) (n : Nat) {acc : β}
    (start : holds acc) (decoder : Decoder σ) :
    Decoder.foldUpTo g n (image acc) decoder = EStateM.map image (Decoder.foldUpTo f n acc) decoder := by
  induction n generalizing acc decoder with
  | zero => rfl
  | succ n ih =>
    rw [foldUpTo, EStateM.map, foldUpTo]
    rcases decoder.next with ⟨_ | e | c, after⟩
    · rfl
    · rfl
    · dsimp only
      rw [step acc c start]
      exact ih (keeps acc c start) after

/-- Folding the images of what is folded gives the image of what that gives. -/
theorem foldScalars_map (holds : β → Prop) (image : β → γ) (keeps : ∀ acc c, holds acc → holds (f acc c))
    (step : ∀ acc c, holds acc → g (image acc) c = image (f acc c)) {acc : β} (start : holds acc)
    (encoding : Encoding) (source : σ) :
    foldScalars encoding g (image acc) source = (image <$> foldScalars encoding f acc) source := by
  have loop := Decoder.foldUpTo_map holds image keeps step (Decoder.steps ⟨source, encoding, false⟩) start
    ⟨source, encoding, false⟩
  change _ = EStateM.map image (foldScalars encoding f acc) source
  simp only [foldScalars, EStateM.map, loop]
  cases Decoder.foldUpTo f (Decoder.steps ⟨source, encoding, false⟩) acc
    ⟨source, encoding, false⟩ <;> rfl

end Folds

end Codec

namespace Document

open Codespace (lineFeed carriageReturn)

/-- A document in three tables. -/
structure Tables where
  /-- What stands at each position in front of the end. -/
  scalars : Array Char
  /-- The line of each position. -/
  lines : Array Nat
  /-- The column of each position. -/
  columns : Array Nat
  endPosition : Nat
  options : Options
  deriving DecidableEq, Repr

/-- The places of all positions in order. -/
def places (document : Document) : List Place :=
  document.slots.map Cell.place ++ [document.endPlace]

def tables (document : Document) : Tables where
  scalars := (document.slots.map Cell.scalar).toArray
  lines := (document.places.map Place.line).toArray
  columns := (document.places.map Place.column).toArray
  endPosition := document.endPosition
  options := document.options

/-! ## Filling the tables -/

/-- Tables under way. Position 0 is there from the start. -/
structure Draft where
  scalars : Array Char := #[lineFeed]
  lines : Array Nat := #[Place.origin.line]
  columns : Array Nat := #[Place.origin.column]
  /-- Whether the last scalar value was a carriage return. -/
  afterReturn : Bool := false
  /-- Whether there has been any scalar value. -/
  fed : Bool := false
  deriving DecidableEq, Repr

namespace Draft

def next (draft : Draft) : Option Place := do
  let last ← draft.scalars.size.psub 1
  let c ← draft.scalars[last]?
  let line ← draft.lines[last]?
  let column ← draft.columns[last]?
  return Place.after ⟨line, column⟩ c

def put (draft : Draft) (c : Char) : Option Draft := do
  let place ← draft.next
  return { draft with
    scalars := draft.scalars.push c
    lines := draft.lines.push place.line
    columns := draft.columns.push place.column }

def add (draft : Draft) (c : Char) : Option Draft :=
  let done : Draft := { draft with afterReturn := c == carriageReturn, fed := true }
  if c = lineFeed ∧ draft.afterReturn then some done
  else if c = carriageReturn then done.put lineFeed
  else done.put c

def take (draft : Draft) (n : Nat) : Draft :=
  { draft with
    scalars := draft.scalars.take n
    lines := draft.lines.take n
    columns := draft.columns.take n }

/-- How many entries are left without the line feeds that nothing follows. That of position 0 stays. -/
def kept (draft : Draft) : Nat := max 1 (draft.scalars.popWhile (· == lineFeed)).size

/-- The tables, with the place of the end behind the last entry that is left. -/
def close (draft : Draft) (options : Options) : Option Tables := do
  let cut := draft.take draft.kept
  let place ← cut.next
  return {
    scalars := cut.scalars
    lines := cut.lines.push place.line
    columns := cut.columns.push place.column
    endPosition := draft.kept
    options := options.effective }

end Draft

namespace Tables

/-- The tables, if there was any text and no access missed. -/
def finish (options : Options) : Option Draft → Except BuildError (Option Tables)
  | none => .ok none
  | some draft => if draft.fed then .ok (draft.close options) else .error (.noText options.filename)

def feed (draft : Option Draft) (c : Char) : Option Draft := draft.bind (Draft.add · c)

def ofScalars (scalars : List Char) (options : Options) : Except BuildError (Option Tables) :=
  finish options (scalars.foldl feed (some {}))

def ofText (text : String) (options : Options) : Except BuildError (Option Tables) :=
  ofScalars text.toList options

def ofSource {σ : Type} [ByteSource σ] (encoding : Encoding) (options : Options) :
    EStateM BuildError σ (Option Tables) := do
  let draft ← EStateM.adaptExcept .undecodable (Codec.foldScalars encoding feed (some {}))
  match finish options draft with
  | .ok tables => return tables
  | .error error => throw error

def ofBytes (encoding : Encoding) (bytes : List UInt8) (options : Options) :
    Except BuildError (Option Tables) :=
  match ofSource encoding options (MemorySource.ofBytes bytes) with
  | .ok tables _ => .ok tables
  | .error error _ => .error error

end Tables

/-! ## No access misses -/

/-- What stands at position 0. -/
def frontCell : Cell := ⟨lineFeed, Place.origin⟩

/-- The tables of some cells. -/
def Draft.ofCells (cells : List Cell) (afterReturn fed : Bool) : Draft where
  scalars := (cells.map Cell.scalar).toArray
  lines := (cells.map fun cell => cell.place.line).toArray
  columns := (cells.map fun cell => cell.place.column).toArray
  afterReturn := afterReturn
  fed := fed

def Layout.draft (layout : Layout) : Draft :=
  .ofCells (frontCell :: layout.cells.toList) layout.afterReturn layout.fed

@[simp] theorem Layout.fed_draft (layout : Layout) : layout.draft.fed = layout.fed := rfl

/-- The next place of a document under way is that after its last cell. -/
def Layout.Settled (layout : Layout) : Prop := layout.next = Layout.placeAfter layout.cells

section Draft

variable {afterReturn fed : Bool}

theorem Draft.next_ofCells (cells : List Cell) (cell : Cell) :
    (Draft.ofCells (cells ++ [cell]) afterReturn fed).next = some (cell.place.after cell.scalar) := by
  simp [next, ofCells, Nat.psub_eq_sub]

theorem Draft.take_ofCells (cells : List Cell) (n : Nat) :
    (Draft.ofCells cells afterReturn fed).take n = Draft.ofCells (cells.take n) afterReturn fed := by
  simp [take, ofCells, List.map_take]

/-- With position 0 there is always a last cell, and the next place is the one after it. -/
theorem Draft.next_front (cells : Array Cell) :
    (Draft.ofCells (frontCell :: cells.toList) afterReturn fed).next =
      some (Layout.placeAfter cells) := by
  rw [Layout.placeAfter, ← Array.getLast?_toList]
  cases cells.toList using List.reverseRecOn with
  | nil => exact Draft.next_ofCells [] frontCell
  | append_singleton cells cell =>
    rw [← List.cons_append, Draft.next_ofCells, List.getLast?_concat]

end Draft

variable {layout : Layout}

theorem Layout.settled_start : Layout.Settled {} := rfl

theorem Layout.draft_start : Layout.draft {} = {} := rfl

theorem Layout.settled_put (layout : Layout) (c : Char) : (layout.put c).Settled := by
  simp [Settled, put, placeAfter]

theorem Layout.draft_put (settled : layout.Settled) (c : Char) :
    layout.draft.put c = some (layout.put c).draft := by
  rw [Draft.put, draft, Draft.next_front, ← settled]
  simp [draft, put, Draft.ofCells]

theorem Layout.Settled.add (settled : layout.Settled) (c : Char) : (layout.add c).Settled := by
  unfold Layout.add
  dsimp only
  split
  · exact settled
  split
  · exact Layout.settled_put _ _
  · exact Layout.settled_put _ _

theorem Layout.draft_add (settled : layout.Settled) (c : Char) :
    layout.draft.add c = some (layout.add c).draft := by
  -- What is noted of a scalar value touches neither the cells nor the next place.
  have noted : Layout.Settled { layout with afterReturn := c == carriageReturn, fed := true } := settled
  unfold Layout.add Draft.add
  dsimp only
  by_cases second : c = lineFeed ∧ layout.afterReturn = true
  · have second' : c = lineFeed ∧ layout.draft.afterReturn = true := second
    rw [if_pos second, if_pos second']
    rfl
  · have second' : ¬ (c = lineFeed ∧ layout.draft.afterReturn = true) := second
    rw [if_neg second, if_neg second']
    by_cases returns : c = carriageReturn
    · rw [if_pos returns, if_pos returns]
      exact Layout.draft_put noted lineFeed
    · rw [if_neg returns, if_neg returns]
      exact Layout.draft_put noted c

theorem Layout.foldl_feed (settled : layout.Settled) (text : List Char) :
    text.foldl Tables.feed (some layout.draft) = some (text.foldl Layout.add layout).draft := by
  induction text generalizing layout with
  | nil => rfl
  | cons c text ih =>
    rw [List.foldl_cons, List.foldl_cons, Tables.feed, Option.bind_some, Layout.draft_add settled]
    exact ih (settled.add c)

/-! ## Cutting the tables -/

theorem toList_popWhile {α : Type} (p : α → Bool) (cells : Array α) :
    (cells.popWhile p).toList = cells.toList.rdropWhile p := by
  obtain ⟨cells⟩ := cells
  rw [List.popWhile_toArray]
  rfl

/-- The entry of position 0 is kept, and behind it those of the cells that are. -/
theorem Draft.kept_front (cells : Array Cell) (afterReturn fed : Bool) :
    (Draft.ofCells (frontCell :: cells.toList) afterReturn fed).kept =
      (cells.popWhile fun cell => cell.scalar == lineFeed).size + 1 := by
  rw [kept, ← Array.length_toList, ← Array.length_toList, toList_popWhile, toList_popWhile, ofCells]
  dsimp only
  -- From the back, one line feed at a time. If nothing else is found, the entry of position 0 goes too, and
  -- the maximum brings it back.
  induction cells.toList using List.reverseRecOn with
  | nil => rfl
  | append_singleton cells cell ih =>
    rw [← List.cons_append, List.map_append, List.map_singleton, List.rdropWhile_concat,
      List.rdropWhile_concat]
    by_cases feed : (cell.scalar == lineFeed) = true
    · rw [if_pos feed, if_pos feed, ih]
    · rw [if_neg feed, if_neg feed]
      simp

theorem take_front (p : Cell → Bool) (cells : Array Cell) :
    (frontCell :: cells.toList).take ((cells.popWhile p).size + 1) =
      frontCell :: (cells.popWhile p).toList := by
  rw [List.take_succ_cons, ← Array.length_toList, toList_popWhile,
    ← List.prefix_iff_eq_take.mp (List.rdropWhile_prefix p _)]

theorem Layout.finish_draft (layout : Layout) (options : Options) :
    Tables.finish options (some layout.draft) =
      (fun document => some document.tables) <$> layout.document options := by
  rw [Tables.finish, Layout.document, fed_draft]
  by_cases fed : layout.fed = true
  · rw [if_pos fed, if_pos fed, Draft.close, Layout.draft, Draft.kept_front, Draft.take_ofCells,
      take_front, Draft.next_front]
    simp [tables, places, slots, Draft.ofCells, frontCell, endPosition]
  · rw [if_neg fed, if_neg fed]
    rfl

/-! ## Making tables -/

namespace Tables

theorem ofScalars_eq (scalars : List Char) (options : Options) :
    Tables.ofScalars scalars options =
      (fun document => some document.tables) <$> Document.ofScalars scalars options := by
  rw [Tables.ofScalars, Document.ofScalars, ← Layout.finish_draft,
    ← Layout.foldl_feed Layout.settled_start, Layout.draft_start]

theorem ofText_eq (text : String) (options : Options) :
    Tables.ofText text options =
      (fun document => some document.tables) <$> Document.ofText text options :=
  ofScalars_eq text.toList options

theorem ofSource_eq {σ : Type} [ByteSource σ] (encoding : Encoding) (options : Options) (source : σ) :
    Tables.ofSource encoding options source =
      ((fun document => some document.tables) <$> Document.ofSource encoding options) source := by
  have folded : Codec.foldScalars encoding feed (some {}) source =
      ((fun layout => some layout.draft) <$> Codec.foldScalars encoding Layout.add {}) source :=
    Codec.foldScalars_map Layout.Settled (fun layout => some layout.draft)
      (fun _ c settled => settled.add c) (fun _ c settled => Layout.draft_add settled c)
      Layout.settled_start encoding source
  cases run : Codec.foldScalars encoding Layout.add {} source with
  | error e rest =>
    have failed := folded.trans (map_eq_error_iff.mpr run)
    have refused : Tables.ofSource encoding options source = .error (.undecodable e) rest :=
      bind_of_error (adaptExcept_eq_error_iff.mpr ⟨e, failed, rfl⟩)
    have refused' : Document.ofSource encoding options source = .error (.undecodable e) rest :=
      bind_of_error (adaptExcept_eq_error_iff.mpr ⟨e, run, rfl⟩)
    rw [refused, map_eq_error_iff.mpr refused']
  | ok layout rest =>
    have drafted := folded.trans (map_eq_ok_iff.mpr ⟨layout, run, rfl⟩)
    have laid : Document.ofSource encoding options source = _ := bind_of_ok (adaptExcept_eq_ok_iff.mpr run)
    rw [Tables.ofSource, bind_of_ok (adaptExcept_eq_ok_iff.mpr drafted), layout.finish_draft]
    cases made : layout.document options with
    | error e =>
      rw [made] at laid
      rw [map_eq_error_iff.mpr laid]
      rfl
    | ok document =>
      rw [made] at laid
      rw [map_eq_ok_iff.mpr ⟨document, laid, rfl⟩]
      rfl

theorem ofBytes_eq (encoding : Encoding) (bytes : List UInt8) (options : Options) :
    Tables.ofBytes encoding bytes options =
      (fun document => some document.tables) <$> Document.ofBytes encoding bytes options := by
  rw [Tables.ofBytes, Document.ofBytes, ofSource_eq]
  cases made : Document.ofSource encoding options (MemorySource.ofBytes bytes) with
  | error e rest =>
    rw [map_eq_error_iff.mpr made]
    rfl
  | ok document rest =>
    rw [map_eq_ok_iff.mpr ⟨document, made, rfl⟩]
    rfl

end Tables

end Document

end UnicodeInput
