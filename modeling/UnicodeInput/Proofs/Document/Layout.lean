import Mathlib.Data.List.DropRight
import UnicodeInput.Document.Layout

/-! The layout of a text, said without the machine that makes it. The machine takes one scalar value at
a time and keeps a flag and a place; what it builds is `laidOut` of the text with its line terminators
unified and its last line feeds dropped. Every question a document answers is then a question about
that text: which scalar value stands where, how many line feeds stand before, and where the last one
is. -/
namespace UnicodeInput.Document

open Codespace (lineFeed carriageReturn)

/-! ## Line terminators -/

/-- A carriage return goes where a line feed follows it, so the pair becomes the line feed. -/
def joinPairs : List Char → List Char
  | [] => []
  | c :: rest =>
    if c = carriageReturn ∧ rest.head? = some lineFeed then joinPairs rest else c :: joinPairs rest

/-- Every pair becomes a line feed, and then every carriage return that is left. -/
def unifyFeeds (text : List Char) : List Char :=
  (joinPairs text).map fun c => if c = carriageReturn then lineFeed else c

def trimFeeds (text : List Char) : List Char := text.rdropWhile (· == lineFeed)

/-- What is left of a text whose beginning a carriage return may have taken as its own. -/
def behindReturn (text : List Char) : List Char :=
  if text.head? = some lineFeed then text.tail else text

theorem unifyFeeds_cons {c : Char} (other : c ≠ carriageReturn) (text : List Char) :
    unifyFeeds (c :: text) = c :: unifyFeeds text := by
  simp [unifyFeeds, joinPairs, other]

theorem unifyFeeds_return (text : List Char) :
    unifyFeeds (carriageReturn :: text) = lineFeed :: unifyFeeds (behindReturn text) := by
  have apart : lineFeed ≠ carriageReturn := by decide
  by_cases follows : text.head? = some lineFeed
  · obtain ⟨rest, rfl⟩ := List.head?_eq_some_iff.mp follows
    rw [behindReturn, if_pos follows, List.tail_cons, ← unifyFeeds_cons apart]
    simp [unifyFeeds, joinPairs]
  · rw [behindReturn, if_neg follows]
    simp [unifyFeeds, joinPairs, follows]

theorem forall_mem_joinPairs {text : List Char} :
    (∀ c ∈ joinPairs text, c = carriageReturn ∨ c = lineFeed) ↔
      ∀ c ∈ text, c = carriageReturn ∨ c = lineFeed := by
  induction text with
  | nil => rfl
  | cons c text ih =>
    rw [joinPairs, List.forall_mem_cons]
    split
    · rename_i pair
      simp [ih, pair.1]
    · rw [List.forall_mem_cons, ih]

theorem trimFeeds_unifyFeeds_eq_nil_iff {text : List Char} :
    trimFeeds (unifyFeeds text) = [] ↔ ∀ c ∈ text, c = carriageReturn ∨ c = lineFeed := by
  rw [← forall_mem_joinPairs, trimFeeds, List.rdropWhile_eq_nil_iff, unifyFeeds, List.forall_mem_map]
  refine forall₂_congr fun c _ => ?_
  by_cases h : c = carriageReturn <;> simp [h]

/-! ## Places -/

/-- The cells of a text that begins at a place. -/
def cellsFrom (place : Place) : List Char → List Cell
  | [] => []
  | c :: rest => ⟨c, place⟩ :: cellsFrom (place.after c) rest

def placeBehind (place : Place) (text : List Char) : Place := text.foldl Place.after place

/-- The document with exactly this text. -/
def laidOut (text : List Char) (options : Options) : Document where
  cells := (cellsFrom Place.first text).toArray
  endPlace := placeBehind Place.first text
  options := options

@[simp] theorem map_scalar_cellsFrom (place : Place) (text : List Char) :
    (cellsFrom place text).map Cell.scalar = text := by
  induction text generalizing place with
  | nil => rfl
  | cons c text ih => simp [cellsFrom, ih]

@[simp] theorem length_cellsFrom (place : Place) (text : List Char) :
    (cellsFrom place text).length = text.length := by
  rw [← List.length_map Cell.scalar, map_scalar_cellsFrom]

theorem cellsFrom_append (place : Place) (front back : List Char) :
    cellsFrom place (front ++ back) =
      cellsFrom place front ++ cellsFrom (placeBehind place front) back := by
  induction front generalizing place with
  | nil => rfl
  | cons c front ih => simp [cellsFrom, placeBehind, ih]

theorem getElem?_cellsFrom (place : Place) (text : List Char) (i : Nat) :
    (cellsFrom place text)[i]? = text[i]?.map fun c => ⟨c, placeBehind place (text.take i)⟩ := by
  induction text generalizing place i with
  | nil => rfl
  | cons c text ih =>
    cases i with
    | zero => rfl
    | succ i => simp [cellsFrom, placeBehind, ih]

theorem rdropWhile_cellsFrom (place : Place) (text : List Char) (p : Char → Bool) :
    (cellsFrom place text).rdropWhile (fun cell => p cell.scalar) =
      cellsFrom place (text.rdropWhile p) := by
  induction text using List.reverseRecOn with
  | nil => rfl
  | append_singleton text c ih =>
    rw [cellsFrom_append]
    change List.rdropWhile _ (_ ++ [Cell.mk c _]) = _
    rw [List.rdropWhile_concat, List.rdropWhile_concat]
    by_cases h : p c = true
    · rw [if_pos h, if_pos h, ih]
    · rw [if_neg h, if_neg h, cellsFrom_append]
      rfl

theorem placeAfter_cellsFrom (text : List Char) :
    Layout.placeAfter (cellsFrom Place.first text).toArray = placeBehind Place.first text := by
  unfold Layout.placeAfter
  induction text using List.reverseRecOn with
  | nil => rfl
  | append_singleton text c ih =>
    rw [cellsFrom_append]
    simp [cellsFrom, placeBehind]

/-! ## The machine -/

def Layout.ahead (layout : Layout) (text : List Char) : List Char :=
  if layout.afterReturn then behindReturn text else text

theorem cells_foldl_add (text : List Char) (layout : Layout) :
    (text.foldl Layout.add layout).cells =
      layout.cells ++ (cellsFrom layout.next (unifyFeeds (layout.ahead text))).toArray := by
  have apart : carriageReturn ≠ lineFeed := by decide
  induction text generalizing layout with
  | nil => simp [Layout.ahead, behindReturn, unifyFeeds, joinPairs, cellsFrom]
  | cons c text ih =>
    rw [List.foldl_cons, ih]
    by_cases second : c = lineFeed ∧ layout.afterReturn = true
    · obtain ⟨rfl, flag⟩ := second
      -- The second half of a pair: nothing is put, and the text after it is all that is left.
      have step : layout.add lineFeed = { layout with afterReturn := false, fed := true } := by
        simp [Layout.add, flag, apart.symm]
      simp [step, Layout.ahead, flag, behindReturn]
    · have ahead : layout.ahead (c :: text) = c :: text := by
        unfold Layout.ahead behindReturn
        by_cases flag : layout.afterReturn = true <;> simp_all
      rw [ahead]
      by_cases returns : c = carriageReturn
      · subst returns
        have step : layout.add carriageReturn =
            ({ layout with afterReturn := true, fed := true } : Layout).put lineFeed := by
          simp [Layout.add, apart]
        rw [unifyFeeds_return, step]
        simp [Layout.put, Layout.ahead, cellsFrom]
      · have step : layout.add c =
            ({ layout with afterReturn := false, fed := true } : Layout).put c := by
          simp only [Layout.add, if_neg second, if_neg returns, beq_eq_false_iff_ne.mpr returns]
        rw [unifyFeeds_cons returns, step]
        simp [Layout.put, Layout.ahead, cellsFrom]

theorem fed_foldl_add (text : List Char) (layout : Layout) :
    (text.foldl Layout.add layout).fed = (layout.fed || !text.isEmpty) := by
  induction text generalizing layout with
  | nil => simp
  | cons c text ih =>
    have fed : (layout.add c).fed = true := by
      unfold Layout.add
      split
      · rfl
      split <;> rfl
    rw [List.foldl_cons, ih, fed]
    simp

/-- What the machine makes of a text: nothing of no text, and otherwise the document that has the text
with its terminators unified and its last line feeds dropped. -/
theorem document_foldl_add (text : List Char) (options : Options) :
    (text.foldl Layout.add {}).document options =
      if text = [] then .error (.noText options.filename)
      else .ok (laidOut (trimFeeds (unifyFeeds text)) options.effective) := by
  have cells : (text.foldl Layout.add {}).cells =
      (cellsFrom Place.first (unifyFeeds text)).toArray := by
    rw [cells_foldl_add]
    simp [Layout.ahead]
  have kept : (text.foldl Layout.add {}).cells.popWhile (fun cell => cell.scalar == lineFeed) =
      (cellsFrom Place.first (trimFeeds (unifyFeeds text))).toArray := by
    rw [cells, List.popWhile_toArray, trimFeeds, ← rdropWhile_cellsFrom]
    rfl
  unfold Layout.document
  rw [fed_foldl_add]
  by_cases empty : text = []
  · simp [empty]
  · simp only [kept, placeAfter_cellsFrom, empty, laidOut]
    simp [empty]

/-- A text makes the one document that has it with its terminators unified and its last line feeds
dropped, and no text makes none. -/
theorem ofScalars_eq_ok_iff {scalars : List Char} {options : Options} {document : Document} :
    ofScalars scalars options = .ok document ↔
      scalars ≠ [] ∧ laidOut (trimFeeds (unifyFeeds scalars)) options.effective = document := by
  rw [ofScalars, document_foldl_add]
  by_cases empty : scalars = []
  · rw [if_pos empty]
    exact ⟨nofun, fun made => absurd empty made.1⟩
  · rw [if_neg empty, Except.ok.injEq, and_iff_right empty]

/-! ## What a document answers -/

section Laid

variable (text : List Char) (options : Options)

@[simp] theorem content_laidOut : (laidOut text options).content = text := by
  simp [content, laidOut]

@[simp] theorem endPosition_laidOut : (laidOut text options).endPosition = text.length + 1 := by
  simp [endPosition, laidOut]

@[simp] theorem options_laidOut : (laidOut text options).options = options := rfl

theorem isEmpty_laidOut : (laidOut text options).isEmpty = true ↔ text = [] := by
  rw [isEmpty, Array.isEmpty_iff_size_eq_zero]
  simp [laidOut]

theorem symbol_laidOut (i : Nat) :
    (laidOut text options).symbol (i + 1) = text[i]?.elim .endOfText .scalar := by
  simp only [symbol, laidOut, List.getElem?_toArray, getElem?_cellsFrom]
  cases text[i]? <;> rfl

theorem place_laidOut {i : Nat} (h : i ≤ text.length) :
    (laidOut text options).place (i + 1) = placeBehind Place.first (text.take i) := by
  simp only [place, laidOut, List.getElem?_toArray, getElem?_cellsFrom]
  by_cases inside : i < text.length
  · rw [List.getElem?_eq_getElem inside]
    rfl
  · obtain rfl : i = text.length := by omega
    rw [List.getElem?_eq_none (Nat.le_refl _), List.take_length]
    rfl

end Laid

variable {text : List Char} {options : Options}

theorem line_placeBehind (place : Place) (text : List Char) :
    (placeBehind place text).line = place.line + text.count lineFeed := by
  induction text generalizing place with
  | nil => rfl
  | cons c text ih =>
    change (placeBehind (place.after c) text).line = _
    rw [ih, List.count_cons, Place.after]
    by_cases h : c = lineFeed
    · simp [h]
      omega
    · simp [h]

/-- The one rule for places: each follows from what stands in front of it, position 0 included. -/
theorem place_succ {position : Nat} {c : Char}
    (h : (laidOut text options).symbol position = .scalar c) :
    (laidOut text options).place (position + 1) = ((laidOut text options).place position).after c := by
  cases position with
  | zero =>
    cases h
    rw [place_laidOut text options (Nat.zero_le _)]
    rfl
  | succ i =>
    rw [symbol_laidOut] at h
    by_cases inside : i < text.length
    · rw [List.getElem?_eq_getElem inside] at h
      cases h
      rw [place_laidOut text options inside, place_laidOut text options (by omega),
        List.take_succ_eq_append_getElem inside, placeBehind, List.foldl_append]
      rfl
    · rw [List.getElem?_eq_none (by omega)] at h
      cases h

theorem exists_symbol {position : Nat} (h : position < (laidOut text options).endPosition) :
    ∃ c, (laidOut text options).symbol position = .scalar c := by
  rw [endPosition_laidOut] at h
  cases position with
  | zero => exact ⟨lineFeed, rfl⟩
  | succ i =>
    refine ⟨text[i], ?_⟩
    rw [symbol_laidOut, List.getElem?_eq_getElem (by omega)]
    rfl

theorem line_le_line_after (place : Place) (c : Char) : place.line ≤ (place.after c).line := by
  unfold Place.after
  split
  · exact Nat.le_succ _
  · exact Nat.le_refl _

theorem line_place_mono {i j : Nat} (order : i ≤ j)
    (inside : j ≤ (laidOut text options).endPosition) :
    ((laidOut text options).place i).line ≤ ((laidOut text options).place j).line := by
  induction j, order using Nat.le_induction with
  | base => exact Nat.le_refl _
  | succ j order ih =>
    obtain ⟨c, stands⟩ := exists_symbol (show j < (laidOut text options).endPosition by omega)
    rw [place_succ stands]
    exact Nat.le_trans (ih (by omega)) (line_le_line_after _ c)

theorem column_laidOut {position : Nat} (first : 1 ≤ position)
    (last : position ≤ (laidOut text options).endPosition) :
    ∃ q < position, (laidOut text options).symbol q = .scalar lineFeed ∧
      (∀ r, q < r → r < position → (laidOut text options).symbol r ≠ .scalar lineFeed) ∧
      ((laidOut text options).place position).column = position - q := by
  -- The induction is on the position. A line feed makes the next position its own line's first.
  induction position, first using Nat.le_induction with
  | base =>
    refine ⟨0, by omega, rfl, fun r _ _ => by omega, ?_⟩
    rw [place_laidOut text options (Nat.zero_le _)]
    rfl
  | succ position first ih =>
    obtain ⟨c, stands⟩ := exists_symbol (show position < (laidOut text options).endPosition by omega)
    rw [place_succ stands, Place.after]
    by_cases feed : c = lineFeed
    · rw [if_pos feed]
      exact ⟨position, by omega, feed ▸ stands, fun r _ _ => by omega, by simp⟩
    · rw [if_neg feed]
      obtain ⟨q, before, found, between, column⟩ := ih (by omega)
      refine ⟨q, by omega, found, fun r after before => ?_, ?_⟩
      · by_cases here : r = position
        · rw [here, stands]
          exact fun same => feed (Symbol.scalar.inj same)
        · exact between r after (by omega)
      · show ((laidOut text options).place position).column + 1 = position + 1 - q
        omega

theorem checked_of_le {α : Type} (document : Document) (f : Nat → α) {position : Nat}
    (h : position ≤ document.endPosition) : document.checked f position = .ok (f position) := by
  rw [checked, if_pos h]

theorem checked_of_lt {α : Type} (document : Document) (f : Nat → α) {position : Nat}
    (h : document.endPosition < position) :
    document.checked f position = .error ⟨position, .inclusive document.endPosition⟩ := by
  rw [checked, if_neg (by omega)]

/-- What a document that lays out `text` answers, at every position and past the last one. -/
structure Answers (document : Document) (text : List Char) : Prop where
  content : document.content = text
  endPosition : document.endPosition = text.length + 1
  front : document.symbolAt 0 = .ok (.scalar lineFeed) ∧ document.lineAt 0 = .ok 0 ∧
    document.columnAt 0 = .ok 0
  inside : ∀ i c, text[i]? = some c → document.symbolAt (i + 1) = .ok (.scalar c)
  behind : document.symbolAt document.endPosition = .ok .endOfText
  line : ∀ position, 1 ≤ position → position ≤ document.endPosition →
    document.lineAt position = .ok (1 + (text.take (position - 1)).count lineFeed)
  column : ∀ position, 1 ≤ position → position ≤ document.endPosition →
    ∃ q < position, document.symbolAt q = .ok (.scalar lineFeed) ∧
      (∀ r, q < r → r < position → document.symbolAt r ≠ .ok (.scalar lineFeed)) ∧
      document.columnAt position = .ok (position - q)
  beyond : ∀ position, document.endPosition < position →
    document.symbolAt position = .error ⟨position, .inclusive document.endPosition⟩ ∧
    document.lineAt position = .error ⟨position, .inclusive document.endPosition⟩ ∧
    document.columnAt position = .error ⟨position, .inclusive document.endPosition⟩

theorem answers_laidOut (text : List Char) (options : Options) :
    (laidOut text options).Answers text where
  content := content_laidOut text options
  endPosition := endPosition_laidOut text options
  front := ⟨rfl, rfl, rfl⟩
  inside i c h := by
    have inside : i < text.length := (List.getElem?_eq_some_iff.mp h).1
    rw [symbolAt, checked_of_le _ _ (by rw [endPosition_laidOut]; omega), symbol_laidOut, h]
    rfl
  behind := by
    rw [symbolAt, checked_of_le _ _ (Nat.le_refl _), endPosition_laidOut, symbol_laidOut,
      List.getElem?_eq_none (Nat.le_refl _)]
    rfl
  line position first last := by
    obtain ⟨i, rfl⟩ : ∃ i, position = i + 1 := ⟨position - 1, by omega⟩
    rw [lineAt, checked_of_le _ _ last]
    rw [endPosition_laidOut] at last
    rw [place_laidOut text options (by omega), line_placeBehind]
    rfl
  column position first last := by
    obtain ⟨q, before, found, between, column⟩ := column_laidOut first last
    refine ⟨q, before, ?_, fun r after before => ?_, ?_⟩
    · rw [symbolAt, checked_of_le _ _ (by omega), found]
    · rw [symbolAt, checked_of_le _ _ (by omega)]
      intro same
      exact between r after before (Except.ok.inj same)
    · rw [columnAt, checked_of_le _ _ last, column]
  beyond position h := ⟨checked_of_lt _ _ h, checked_of_lt _ _ h, checked_of_lt _ _ h⟩

/-- No scalar value, no document; any at all, and the document is that of the text with its line
terminators unified and its last line feeds dropped. -/
theorem ofScalars_answers (scalars : List Char) (options : Options) :
    ofText (String.ofList scalars) options = ofScalars scalars options ∧
    match ofScalars scalars options with
    | .error e => scalars = [] ∧ e = .noText options.filename
    | .ok document => scalars ≠ [] ∧ document.Answers (trimFeeds (unifyFeeds scalars)) ∧
        document.options = options.effective ∧
        (document.isEmpty = true ↔ ∀ c ∈ scalars, c = carriageReturn ∨ c = lineFeed) := by
  constructor
  · rw [ofText, String.toList_ofList]
  · rw [ofScalars, document_foldl_add]
    by_cases empty : scalars = []
    · rw [if_pos empty]
      exact ⟨empty, rfl⟩
    · rw [if_neg empty]
      refine ⟨empty, answers_laidOut _ _, rfl, ?_⟩
      rw [isEmpty_laidOut, trimFeeds_unifyFeeds_eq_nil_iff]

end UnicodeInput.Document
