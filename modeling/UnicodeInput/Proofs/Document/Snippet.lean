import UnicodeInput.Proofs.Document.Built
import UnicodeInput.Proofs.Document.Drawing
import UnicodeInput.Proofs.Document.Lines

/-! Snippets, said in lines. The program finds its lines by walking positions: back to the last one that
is too far above, then on over the cells as long as their number is low enough, with a line feed put in
where the text has none and one taken off the end. What comes out are lines of the text, joined by
line feeds, with the caret between them. -/
namespace UnicodeInput.Document

open Codespace (lineFeed)

/-! ## What a snippet shows -/

def lines (document : Document) : List (List Char) := linesOf document.content

/-- The lines from number `first` to number `last`, counted from one. -/
def linesBetween (document : Document) (first last : Nat) : List (List Char) :=
  (document.lines.take last).drop (first - 1)

/-- The lines above the caret: of the file, of the message, and of the text. -/
def linesAbove (document : Document) (message : List Char) (line : Nat) : List (List Char) :=
  (document.options.filename.toList.map fun name => "In file ".toList ++ name.toList) ++
    (if message = [] then [] else [message]) ++
    document.linesBetween (max 1 (line - document.options.linesBefore)) line

def linesBelow (document : Document) (line : Nat) : List (List Char) :=
  document.linesBetween (line + 1)
    (min document.lines.length (line + document.options.linesAfter))

def snippetLines (document : Document) (message : List Char) (position : Nat) : List (List Char) :=
  let place := document.place position
  document.linesAbove message place.line ++
    (List.replicate (place.column - 1) ' ' ++ "^__ Line ".toList ++ (toString place.line).toList) ::
      document.linesBelow place.line

/-! ## Walking back -/

theorem lastAbove?_eq_some {document : Document} {line position i : Nat}
    (found : document.lastAbove? line position = some i) :
    i < position ∧ (document.place i).line < line ∧
      ∀ j, i < j → j < position → line ≤ (document.place j).line := by
  induction position with
  | zero => cases found
  | succ position ih =>
    rw [lastAbove?] at found
    by_cases above : (document.place position).line < line
    · rw [if_pos above] at found
      cases found
      exact ⟨Nat.lt_succ_self _, above, fun j _ _ => by omega⟩
    · rw [if_neg above] at found
      obtain ⟨before, there, between⟩ := ih found
      refine ⟨by omega, there, fun j after before => ?_⟩
      by_cases here : j = position
      · rw [here]
        omega
      · exact between j after (by omega)

theorem le_line_of_lastAbove?_eq_none {document : Document} {line position : Nat}
    (absent : document.lastAbove? line position = none) :
    ∀ j < position, line ≤ (document.place j).line := by
  induction position with
  | zero => exact fun j before => absurd before (Nat.not_lt_zero j)
  | succ position ih =>
    rw [lastAbove?] at absent
    by_cases above : (document.place position).line < line
    · rw [if_pos above] at absent
      cases absent
    · rw [if_neg above] at absent
      intro j before
      by_cases here : j = position
      · rw [here]
        omega
      · exact ih absent j (by omega)

section Laid

variable {text : List Char} {options : Options}

theorem lines_laidOut : (laidOut text options).lines = linesOf text := by
  rw [lines, content_laidOut]

/-- The cells in front of a position are on lines that are no further down than its own. -/
theorem line_le_of_mem_take {i : Nat} (inside : i ≤ (laidOut text options).endPosition) {cell : Cell}
    (member : cell ∈ cellsFrom Place.first (text.take i)) :
    cell.place.line ≤ ((laidOut text options).place i).line := by
  obtain ⟨j, there⟩ := List.getElem?_of_mem member
  rw [getElem?_cellsFrom] at there
  obtain ⟨c, found, rfl⟩ := Option.map_eq_some_iff.mp there
  obtain ⟨before, -⟩ := List.getElem?_eq_some_iff.mp found
  rw [List.length_take] at before
  show (placeBehind Place.first ((text.take i).take j)).line ≤ _
  rw [List.take_take, show min j i = j by omega, ← place_laidOut text options (by omega)]
  exact line_place_mono (by omega) inside

/-- Position 0 is on line 0, so the walk back to above any line of the text ends. -/
theorem exists_lastAbove? {document : Document} {first position : Nat} (positive : 1 ≤ first)
    (reached : first ≤ (document.place position).line) :
    ∃ i, document.lastAbove? first position = some i := by
  cases found : document.lastAbove? first position with
  | some i => exact ⟨i, rfl⟩
  | none =>
    have origin : (document.place 0).line = 0 := rfl
    by_cases zero : position = 0
    · rw [zero, origin] at reached
      omega
    · have := le_line_of_lastAbove?_eq_none found 0 (by omega)
      omega

/-- The cells above line `first` are the first `i`. -/
def CutAt (text : List Char) (first i : Nat) : Prop :=
  (cellsFrom Place.first text).drop i =
    (cellsFrom Place.first text).dropWhile fun cell => cell.place.line < first

theorem cutAt_zero (text : List Char) : CutAt text 1 0 :=
  (dropWhile_cellsFrom_of_le (Nat.le_refl 1) text).symm

/-- The walk back stops at a line feed, and the cells up to it are those above line `first`. -/
theorem cutAt_of_lastAbove? {first position i : Nat}
    (inside : position ≤ (laidOut text options).endPosition)
    (reached : first ≤ ((laidOut text options).place position).line)
    (found : (laidOut text options).lastAbove? first position = some i) :
    (laidOut text options).symbol i = .scalar lineFeed ∧ CutAt text first i := by
  obtain ⟨before, above, between⟩ := lastAbove?_eq_some found
  have next : first ≤ ((laidOut text options).place (i + 1)).line := by
    by_cases last : i + 1 = position
    · rw [last]
      exact reached
    · exact between (i + 1) (by omega) (by omega)
  constructor
  · obtain ⟨c, symbol⟩ := exists_symbol (show i < (laidOut text options).endPosition by omega)
    rw [place_succ symbol, Place.after] at next
    by_cases feed : c = lineFeed
    · rw [symbol, feed]
    · rw [if_neg feed] at next
      exact absurd (Nat.lt_of_lt_of_le above next) (Nat.lt_irrefl _)
  · have passed : ∀ cell ∈ cellsFrom Place.first (text.take i),
        decide (cell.place.line < first) = true := by
      intro cell member
      rw [decide_eq_true_eq]
      exact Nat.lt_of_le_of_lt (line_le_of_mem_take (by omega) member) above
    rw [endPosition_laidOut] at inside
    have split : cellsFrom Place.first text = cellsFrom Place.first (text.take i) ++
        cellsFrom ((laidOut text options).place (i + 1)) (text.drop i) := by
      rw [place_laidOut text options (by omega), ← cellsFrom_append, List.take_append_drop]
    have length : (cellsFrom Place.first (text.take i)).length = i := by
      rw [length_cellsFrom, List.length_take]
      omega
    rw [CutAt, split, List.drop_left' length, List.dropWhile_append_of_pos passed,
      dropWhile_cellsFrom_of_le next]

/-- Where the walk back ends, behind a line feed and in front of the first line of the window. -/
theorem contextStart_laidOut {position : Nat}
    (inside : position ≤ (laidOut text options).endPosition) {line : Nat}
    (stands : ((laidOut text options).place position).line = line) :
    ∃ i, (laidOut text options).contextStart line position = i + 1 ∧
      (laidOut text options).symbol i = .scalar lineFeed ∧
      CutAt text (max 1 (line - options.linesBefore)) i := by
  unfold contextStart
  rw [options_laidOut]
  by_cases near : line ≤ options.linesBefore + 1
  · rw [if_pos near, show max 1 (line - options.linesBefore) = 1 by omega]
    exact ⟨0, rfl, rfl, cutAt_zero text⟩
  · rw [if_neg near, show max 1 (line - options.linesBefore) = line - options.linesBefore by omega]
    have reached : line - options.linesBefore ≤ ((laidOut text options).place position).line := by
      omega
    obtain ⟨i, found⟩ := exists_lastAbove? (by omega) reached
    rw [found]
    exact ⟨i, rfl, cutAt_of_lastAbove? inside reached found⟩

/-! ## Walking on -/

/-- The cells from line `first` to line `last`. -/
def cellsBetween (text : List Char) (first last : Nat) : List Cell :=
  ((cellsFrom Place.first text).dropWhile fun cell => cell.place.line < first).takeWhile
    fun cell => cell.place.line ≤ last

theorem CutAt.cellsUpTo_eq {first i : Nat} (cut : CutAt text first i) (last : Nat) :
    (laidOut text options).cellsUpTo (i + 1) last = cellsBetween text first last := by
  rw [cellsUpTo, slots, List.drop_succ_cons, cellsBetween, ← cut]
  rfl

theorem dropWhile_line_dropWhile_line {first next : Nat} (order : first ≤ next)
    (cells : List Cell) :
    (cells.dropWhile fun cell => cell.place.line < first).dropWhile
        (fun cell => cell.place.line < next) =
      cells.dropWhile fun cell => cell.place.line < next := by
  induction cells with
  | nil => rfl
  | cons cell cells ih =>
    rw [List.dropWhile_cons]
    by_cases above : cell.place.line < first
    · rw [if_pos (decide_eq_true above), ih, List.dropWhile_cons_of_pos]
      exact decide_eq_true (Nat.lt_of_lt_of_le above order)
    · rw [if_neg (by simpa using above)]

/-- Behind a walk up to line `last` the next line begins. -/
theorem CutAt.next {first i last : Nat} (cut : CutAt text first i) (order : first ≤ last + 1) :
    CutAt text (last + 1) (i + (cellsBetween text first last).length) := by
  rw [CutAt, ← List.drop_drop, cut, cellsBetween, drop_length_takeWhile,
    ← dropWhile_line_dropWhile_line order]
  simp only [Nat.lt_succ_iff]

/-- What stands in front of the place that the walk has come to. -/
theorem CutAt.symbol_behind {first i : Nat} (cut : CutAt text first i)
    (feed : (laidOut text options).symbol i = .scalar lineFeed) (last : Nat) :
    (laidOut text options).symbol (i + (cellsBetween text first last).length) =
      .scalar (((cellsBetween text first last).map Cell.scalar).getLastD lineFeed) := by
  have split : ∃ rest, (cellsFrom Place.first text).drop i = cellsBetween text first last ++ rest :=
    ⟨_, cut.trans List.takeWhile_append_dropWhile.symm⟩
  obtain ⟨rest, split⟩ := split
  generalize cellsBetween text first last = walked at split ⊢
  cases walked using List.reverseRecOn with
  | nil => exact feed
  | append_singleton front cell =>
    have here : (cellsFrom Place.first text)[i + front.length]? = some cell := by
      rw [← List.getElem?_drop, split]
      simp
    rw [List.length_append, List.length_singleton, ← Nat.add_assoc]
    simp [symbol, laidOut, here]

theorem map_scalar_cellsBetween (text : List Char) {first : Nat} (positive : 1 ≤ first) (last : Nat) :
    (cellsBetween text first last).map Cell.scalar =
      if last + 1 - first < ((linesOf text).drop (first - 1)).length then
        closeLines (((linesOf text).drop (first - 1)).take (last + 1 - first))
      else joinLines ((linesOf text).drop (first - 1)) := by
  have plain := plain_linesOf text
  have dropped := dropWhile_cellsFrom_joinLines plain 1 first
  rw [joinLines_linesOf, show 1 + (first - 1) = first by omega] at dropped
  rw [cellsBetween, show Place.first = ⟨1, 1⟩ from rfl, dropped,
    takeWhile_cellsFrom_joinLines (plain.drop (first - 1))]

/-! ## Closing and opening lines -/

theorem getLastD_closeLines (lines : List (List Char)) :
    (closeLines lines).getLastD lineFeed = lineFeed := by
  by_cases none : lines = []
  · rw [none]
    rfl
  · rw [closeLines_eq none, List.getLastD_concat]

theorem openLine_closeLines {lines : List (List Char)} (nonempty : lines ≠ []) :
    openLine (closeLines lines) = joinLines lines := by
  rw [closeLines_eq nonempty, openLine, List.getLast?_concat, if_pos rfl, List.dropLast_concat]

theorem openLine_of_getLast? {text : List Char} {c : Char} (last : text.getLast? = some c)
    (other : c ≠ lineFeed) : openLine text = text := by
  rw [openLine, last, if_neg]
  exact fun same => other (Option.some.inj same)

/-- The lines above the caret are closed, the last line of the text by a line feed put in. -/
theorem close_cellsBetween (last : text.getLast? ≠ some lineFeed) {first : Nat} (positive : 1 ≤ first)
    (line : Nat) :
    (cellsBetween text first line).map Cell.scalar ++
        (if ((cellsBetween text first line).map Cell.scalar).getLastD lineFeed ≠ lineFeed then
          [lineFeed] else []) =
      closeLines (((linesOf text).take line).drop (first - 1)) := by
  rw [map_scalar_cellsBetween text positive line, List.drop_take,
    show line - (first - 1) = line + 1 - first by omega]
  by_cases more : line + 1 - first < ((linesOf text).drop (first - 1)).length
  · rw [if_pos more, getLastD_closeLines, if_neg (by simp), List.append_nil]
  · rw [if_neg more, List.take_of_length_le (by omega)]
    by_cases none : (linesOf text).drop (first - 1) = []
    · rw [none]
      rfl
    · obtain ⟨c, ending, other⟩ := getLast?_joinLines_drop last none
      rw [List.getLastD_eq_getLast?, ending, closeLines_eq none]
      simp [other]

/-- The lines below the caret are joined to those above, and nothing stands behind them. -/
theorem open_cellsBetween (last : text.getLast? ≠ some lineFeed) {above : List (List Char)}
    (nonempty : above ≠ []) (line after : Nat) :
    openLine (closeLines above ++
        (cellsBetween text (line + 1) (line + after)).map Cell.scalar) =
      joinLines (above ++ ((linesOf text).take (min (linesOf text).length (line + after))).drop
        line) := by
  rw [map_scalar_cellsBetween text (Nat.le_add_left 1 line), drop_take_min, Nat.add_sub_cancel,
    show line + after + 1 - (line + 1) = after by omega]
  by_cases more : after < ((linesOf text).drop line).length
  · rw [if_pos more, ← closeLines_append, openLine_closeLines (by simp [nonempty])]
  · rw [if_neg more, List.take_of_length_le (by omega)]
    by_cases none : (linesOf text).drop line = []
    · rw [none, joinLines_nil, List.append_nil, List.append_nil, openLine_closeLines nonempty]
    · obtain ⟨c, ending, other⟩ := getLast?_joinLines_drop last none
      rw [joinLines_append none]
      refine openLine_of_getLast? ?_ other
      rw [List.getLast?_append, ending]
      rfl

theorem headerLine_eq (line : List Char) :
    headerLine line = closeLines (if line = [] then [] else [line]) := by
  cases line with
  | nil => rfl
  | cons c line => simp [headerLine]

/-- The lines of the file and of the message are closed too. -/
theorem close_header (filename : Option String) (message : List Char) :
    filename.elim [] (fun name => headerLine (fileLine name)) ++ headerLine message =
      closeLines ((filename.toList.map fun name => "In file ".toList ++ name.toList) ++
        if message = [] then [] else [message]) := by
  rw [closeLines_append, ← headerLine_eq]
  congr 1
  cases filename with
  | none => rfl
  | some name =>
    have named : fileLine name ≠ [] := by
      intro empty
      obtain ⟨absent, -⟩ := List.append_eq_nil_iff.mp empty
      exact absurd absent (by decide)
    show headerLine (fileLine name) = closeLines [fileLine name]
    rw [headerLine_eq, if_neg named]

theorem snippetChars_laidOut (last : text.getLast? ≠ some lineFeed) (message : List Char)
    {position : Nat} (inside : position ≤ (laidOut text options).endPosition) :
    (laidOut text options).snippetChars message position =
      joinLines ((laidOut text options).snippetLines message position) := by
  obtain ⟨i, start, feed, cut⟩ := contextStart_laidOut inside rfl
  unfold snippetChars windowChars snippetLines
  rw [Nat.min_eq_left inside]
  dsimp only
  generalize (laidOut text options).place position = place at *
  have shown : linesOf text = (laidOut text options).lines := lines_laidOut.symm
  rw [start, cut.cellsUpTo_eq, Nat.add_right_comm, (cut.next (by omega)).cellsUpTo_eq,
    Nat.add_sub_cancel, cut.symbol_behind feed, close_header]
  simp only [Nat.zero_lt_succ, true_and, ne_eq, Symbol.scalar.injEq]
  rw [List.append_assoc (closeLines _), close_cellsBetween last (Nat.le_max_left 1 _),
    ← closeLines_append, shown]
  change openLine (closeLines ((laidOut text options).linesAbove message place.line) ++
    caretLine place ++ [lineFeed] ++ _) = _
  have caret : caretLine place ++ [lineFeed] = closeLines [caretLine place] := by simp
  rw [List.append_assoc (closeLines _), caret, ← closeLines_append,
    open_cellsBetween last (by simp), shown, List.append_assoc]
  rfl

end Laid

/-- A snippet is its lines, joined by line feeds. -/
theorem Laid.snippetChars_eq {document : Document} {text : List Char} (laid : document.Laid text)
    (message : List Char) {position : Nat} (inside : position ≤ document.endPosition) :
    document.snippetChars message position = joinLines (document.snippetLines message position) := by
  rw [laid.eq_laidOut] at inside ⊢
  exact snippetChars_laidOut laid.last message inside

theorem snippetChars_min (document : Document) (message : List Char) (position : Nat) :
    document.snippetChars message (min position document.endPosition) =
      document.snippetChars message position := by
  unfold snippetChars
  rw [Nat.min_assoc, Nat.min_self]

/-- At every position of a document, and wherever a cursor is, a snippet is the lines of the window with
the caret line between them, joined by line feeds. Past the last position there is none. That is what is
drawn, as long as the sums that the snippet takes are words. -/
theorem snippetAt_eq_lines {document : Document} (built : Built document) (message : String)
    (position : Nat) :
    (document.snippetAt message position =
      if position ≤ document.endPosition then
        .ok (String.ofList
          ([lineFeed].intercalate (document.snippetLines message.toList position)))
      else .error ⟨position, .inclusive document.endPosition⟩) ∧
    ∀ cursor : Cursor, cursor.document = document →
      cursor.snippetAt message position = document.snippetAt message position ∧
      cursor.snippet message = String.ofList ([lineFeed].intercalate
        (document.snippetLines message.toList (min cursor.position document.endPosition))) ∧
      ∀ overflow,
        (document.SumsFit position →
          document.drawAt overflow message position = some (document.snippetAt message position) ∧
          cursor.drawAt overflow message position = some (document.snippetAt message position)) ∧
        (document.SumsFit cursor.position →
          cursor.draw overflow message = some (cursor.snippet message)) := by
  obtain ⟨text, laid⟩ := built.exists_laid
  constructor
  · by_cases inside : position ≤ document.endPosition
    · rw [if_pos inside, snippetAt, checked_of_le _ _ inside, snippet,
        laid.snippetChars_eq message.toList inside, joinLines]
    · rw [if_neg inside, snippetAt, checked_of_lt _ _ (by omega)]
  · intro cursor same
    subst same
    refine ⟨rfl, ?_, fun overflow => ⟨fun fit => ⟨drawAt_of_sumsFit fit, drawAt_of_sumsFit fit⟩,
      draw_of_sumsFit⟩⟩
    rw [Cursor.snippet, snippet, ← snippetChars_min,
      laid.snippetChars_eq message.toList (Nat.min_le_right _ _), joinLines]

/-- Two lines and a message, at the first position of the second line. -/
theorem snippetAt_eq_lines_second_line :
    Built (laidOut ['a', lineFeed, 'b'] {}) ∧
      (laidOut ['a', lineFeed, 'b'] {}).snippetAt "m" 3 = .ok "m\na\nb\n^__ Line 2" := by
  have built : Built (laidOut ['a', lineFeed, 'b'] {}) :=
    .ofScalars ((document_foldl_add ['a', lineFeed, 'b'] {}).trans rfl)
  exact ⟨built, (snippetAt_eq_lines built "m" 3).1.trans rfl⟩

/-! ## The end of a snippet -/

theorem feed_not_mem_caretLine (place : Place) : lineFeed ∉ caretLine place := by
  have spaces : lineFeed ∉ List.replicate (place.column - 1) ' ' := by
    intro member
    exact absurd (List.eq_of_mem_replicate member) (by decide)
  have mark : lineFeed ∉ "^__ Line ".toList := by decide
  have digits : lineFeed ∉ (Nat.repr place.line).toList := by
    rw [Nat.toList_repr]
    intro member
    exact absurd (Nat.isDigit_of_mem_toDigits (by decide) (by decide) member) (by decide)
  unfold caretLine
  simp only [List.mem_append, not_or]
  exact ⟨⟨spaces, mark⟩, digits⟩

theorem caretLine_ne_nil (place : Place) : caretLine place ≠ [] := by
  intro empty
  have digits : (Nat.repr place.line).toList = [] := (List.append_eq_nil_iff.mp empty).2
  rw [Nat.toList_repr] at digits
  exact Nat.toDigits_ne_nil digits

theorem linesBelow_eq (document : Document) (line : Nat) :
    document.linesBelow line = (document.lines.drop line).take document.options.linesAfter :=
  drop_take_min document.lines line document.options.linesAfter

theorem getLast?_snippetLines (document : Document) (message : List Char) (position : Nat) :
    (document.snippetLines message position).getLast? =
      some ((document.linesBelow (document.place position).line).getLast?.getD
        (caretLine (document.place position))) := by
  unfold snippetLines
  rw [List.getLast?_append, List.getLast?_cons]
  rfl

/-- The last line of a snippet is the line `linesAfter` below that of the position, if there is one, and
else a line with something on it. -/
theorem Laid.exists_last_snippetLine {document : Document} {text : List Char}
    (laid : document.Laid text) (message : List Char) (position : Nat) :
    ∃ line, (document.snippetLines message position).getLast? = some line ∧ lineFeed ∉ line ∧
      (line = [] ↔
        document.lines[(document.place position).line + document.options.linesAfter - 1]? =
          some []) := by
  have after : 1 ≤ document.options.linesAfter := by
    rw [← laid.effective]
    exact Nat.le_max_right _ 1
  have content : document.lines = linesOf text := by
    rw [laid.eq_laidOut, lines_laidOut]
  have plain : Plain document.lines := content ▸ plain_linesOf text
  rw [getLast?_snippetLines, linesBelow_eq, List.getLast?_take, if_neg (by omega),
    List.getElem?_drop, ← Nat.add_sub_assoc after]
  refine ⟨_, rfl, ?_⟩
  cases window : document.lines[(document.place position).line + document.options.linesAfter - 1]?
  case some line =>
    exact ⟨plain line (List.mem_of_getElem? window), by simp⟩
  case none =>
    rw [Option.none_or, List.getLast?_drop]
    by_cases below : document.lines.length ≤ (document.place position).line
    · rw [if_pos below]
      exact ⟨feed_not_mem_caretLine _, by simpa using caretLine_ne_nil _⟩
    · rw [if_neg below]
      cases last : document.lines.getLast?
      case none => exact ⟨feed_not_mem_caretLine _, by simpa using caretLine_ne_nil _⟩
      case some line =>
        have filled : line ≠ [] := last_line_ne_nil laid.last (content ▸ last)
        exact ⟨plain line (List.mem_of_getLast? last), by simpa using filled⟩

/-- A snippet ends in a line feed exactly if the line `linesAfter` below that of the position is there
and blank. It is what is drawn, as long as the sums that it takes are words. -/
theorem snippetAt_ends_in_feed_iff {document : Document} (built : Built document)
    (message : String) {position : Nat} (inside : position ≤ document.endPosition) :
    ∃ shown : String, document.snippetAt message position = .ok shown ∧
      (∀ overflow, document.SumsFit position →
        document.drawAt overflow message position = some (.ok shown)) ∧
      (shown.toList.getLast? = some lineFeed ↔
        document.lines[(document.place position).line + document.options.linesAfter - 1]? =
          some []) := by
  obtain ⟨text, laid⟩ := built.exists_laid
  obtain ⟨line, last, plain, blank⟩ := laid.exists_last_snippetLine message.toList position
  have answer : document.snippetAt message position = .ok (document.snippet message position) :=
    checked_of_le _ _ inside
  refine ⟨_, answer, fun overflow fit => answer ▸ drawAt_of_sumsFit fit, ?_⟩
  have filled : document.snippetLines message.toList position ≠ [[]] := by
    intro same
    have caret : caretLine (document.place position) ∈ [[]] :=
      same ▸ List.mem_append_right _ (List.mem_cons_self ..)
    exact caretLine_ne_nil _ (List.mem_singleton.mp caret)
  rw [snippet, String.toList_ofList, laid.snippetChars_eq message.toList inside,
    getLast?_joinLines_eq_feed_iff last plain filled, blank]

/-- With two blank lines below the position, the one line shown of them is blank. -/
theorem snippetAt_ends_in_feed_above_blank_lines :
    let document := laidOut ['a', lineFeed, lineFeed, lineFeed, 'b'] {}
    Built document ∧ 1 ≤ document.endPosition ∧
      ∃ shown : String, document.snippetAt "" 1 = .ok shown ∧
        document.drawAt .stop "" 1 = some (.ok shown) ∧
        shown.toList.getLast? = some lineFeed := by
  have built : Built (laidOut ['a', lineFeed, lineFeed, lineFeed, 'b'] {}) :=
    .ofScalars ((document_foldl_add ['a', lineFeed, lineFeed, lineFeed, 'b'] {}).trans rfl)
  obtain ⟨shown, answer, drawn, ends⟩ :=
    snippetAt_ends_in_feed_iff built "" (show 1 ≤ _ from by decide)
  exact ⟨built, by decide, shown, answer, drawn .stop ⟨by decide, by decide⟩, ends.mpr rfl⟩

/-- So it is not true that no snippet ends in a line feed. -/
theorem not_forall_snippetAt_ends_open :
    ¬ ∀ document : Document, Built document → ∀ (message : String) (position : Nat),
      position ≤ document.endPosition → ∀ shown : String,
        document.snippetAt message position = .ok shown →
          shown.toList.getLast? ≠ some lineFeed := by
  intro claim
  have built : Built (laidOut ['a', lineFeed, lineFeed, lineFeed, 'b'] {}) :=
    .ofScalars ((document_foldl_add ['a', lineFeed, lineFeed, lineFeed, 'b'] {}).trans rfl)
  have shown : (laidOut ['a', lineFeed, lineFeed, lineFeed, 'b'] {}).snippetAt "" 1 =
      .ok "a\n^__ Line 1\n" := rfl
  exact claim _ built "" 1 (by decide) _ shown (by decide)

end UnicodeInput.Document
