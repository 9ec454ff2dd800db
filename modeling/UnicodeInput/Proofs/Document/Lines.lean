import UnicodeInput.Proofs.Document.Layout

/-! Lines of text. The cells of a text that is put together from lines can be cut by the numbers of
their lines, and a cut falls between two lines of the text. So walking the cells while the number is
low enough is taking lines, and passing over them is dropping lines. -/
namespace UnicodeInput.Document

open Codespace (lineFeed)

/-- The lines of a text. No text has no lines. -/
def linesOf (text : List Char) : List (List Char) :=
  if text = [] then [] else text.splitOn lineFeed

/-- Lines with a line feed between any two. -/
def joinLines (lines : List (List Char)) : List Char := [lineFeed].intercalate lines

/-- Lines with a line feed behind each. -/
def closeLines (lines : List (List Char)) : List Char := lines.flatMap (· ++ [lineFeed])

@[simp] theorem joinLines_nil : joinLines [] = [] := rfl

@[simp] theorem joinLines_singleton (line : List Char) : joinLines [line] = line :=
  List.intercalate_singleton

theorem joinLines_cons {lines : List (List Char)} (more : lines ≠ []) (line : List Char) :
    joinLines (line :: lines) = line ++ lineFeed :: joinLines lines := by
  rw [joinLines, List.intercalate_cons_of_ne_nil more]
  simp [joinLines]

@[simp] theorem closeLines_nil : closeLines [] = [] := rfl

@[simp] theorem closeLines_cons (line : List Char) (lines : List (List Char)) :
    closeLines (line :: lines) = line ++ lineFeed :: closeLines lines := by
  simp [closeLines]

theorem closeLines_append (front back : List (List Char)) :
    closeLines (front ++ back) = closeLines front ++ closeLines back := List.flatMap_append

theorem joinLines_append {back : List (List Char)} (more : back ≠ []) (front : List (List Char)) :
    joinLines (front ++ back) = closeLines front ++ joinLines back := by
  induction front with
  | nil => rfl
  | cons line front ih =>
    rw [List.cons_append, joinLines_cons (by simp [more]), ih]
    simp

theorem closeLines_eq {lines : List (List Char)} (nonempty : lines ≠ []) :
    closeLines lines = joinLines lines ++ [lineFeed] := by
  rw [← List.dropLast_concat_getLast nonempty, joinLines_append (List.cons_ne_nil _ _),
    closeLines_append, joinLines_singleton, closeLines_cons, List.append_assoc]
  rfl

theorem joinLines_linesOf (text : List Char) : joinLines (linesOf text) = text := by
  unfold linesOf
  by_cases empty : text = []
  · simp [empty]
  · rw [if_neg empty]
    exact List.intercalate_splitOn lineFeed

/-! ## No line has a line feed inside -/

/-- Lines without line feeds of their own. -/
def Plain (lines : List (List Char)) : Prop := ∀ line ∈ lines, lineFeed ∉ line

theorem plain_splitOn (text : List Char) : Plain (text.splitOn lineFeed) := by
  induction text with
  | nil => simp [Plain]
  | cons c text ih =>
    rw [List.splitOn_cons_eq_if_modifyHead]
    by_cases feed : c = lineFeed
    · rw [if_pos (beq_iff_eq.mpr feed)]
      exact List.forall_mem_cons.mpr ⟨List.not_mem_nil, ih⟩
    · rw [if_neg (by simpa using feed)]
      obtain ⟨first, rest, split⟩ := List.exists_cons_of_ne_nil (List.splitOn_ne_nil lineFeed text)
      rw [split] at ih ⊢
      obtain ⟨plain, others⟩ := List.forall_mem_cons.mp ih
      refine List.forall_mem_cons.mpr ⟨?_, others⟩
      intro member
      rcases List.mem_cons.mp member with same | member
      · exact feed same.symm
      · exact plain member

theorem plain_linesOf (text : List Char) : Plain (linesOf text) := by
  unfold linesOf
  by_cases empty : text = []
  · simp [empty, Plain]
  · rw [if_neg empty]
    exact plain_splitOn text

theorem Plain.drop {lines : List (List Char)} (plain : Plain lines) (n : Nat) :
    Plain (lines.drop n) :=
  fun _ member => plain _ (List.mem_of_mem_drop member)

/-- The last line of a text that does not end in a line feed is not blank. -/
theorem last_line_ne_nil {text line : List Char} (last : text.getLast? ≠ some lineFeed)
    (is_last : (linesOf text).getLast? = some line) : line ≠ [] := by
  obtain ⟨front, split⟩ := List.getLast?_eq_some_iff.mp is_last
  intro blank
  have whole : text = closeLines front := by
    rw [← joinLines_linesOf text, split, joinLines_append (List.cons_ne_nil _ _), blank]
    simp
  by_cases none : front = []
  · rw [none] at whole split
    rw [whole] at split
    cases split
  · rw [whole, closeLines_eq none, List.getLast?_concat] at last
    exact last rfl

theorem getLast?_joinLines {lines : List (List Char)} {line : List Char}
    (is_last : lines.getLast? = some line) (filled : line ≠ []) :
    (joinLines lines).getLast? = line.getLast? := by
  obtain ⟨front, rfl⟩ := List.getLast?_eq_some_iff.mp is_last
  rw [joinLines_append (List.cons_ne_nil _ _), joinLines_singleton, List.getLast?_append,
    List.getLast?_eq_some_getLast filled]
  rfl

/-- Joined lines end in a line feed exactly if the last of them is blank. -/
theorem getLast?_joinLines_eq_feed_iff {lines : List (List Char)} {line : List Char}
    (is_last : lines.getLast? = some line) (plain : lineFeed ∉ line) (filled : lines ≠ [[]]) :
    (joinLines lines).getLast? = some lineFeed ↔ line = [] := by
  by_cases blank : line = []
  · obtain ⟨front, rfl⟩ := List.getLast?_eq_some_iff.mp is_last
    rw [blank] at filled ⊢
    have nonempty : front ≠ [] := fun none => filled (by rw [none, List.nil_append])
    rw [joinLines_append (List.cons_ne_nil _ _), closeLines_eq nonempty]
    simp
  · rw [getLast?_joinLines is_last blank]
    constructor
    · intro feed
      exact absurd (List.mem_of_getLast? feed) plain
    · intro same
      exact absurd same blank

/-- What is left of such a text behind some of its lines does not end in a line feed either. -/
theorem getLast?_joinLines_drop {text : List Char} (last : text.getLast? ≠ some lineFeed) {n : Nat}
    (left : (linesOf text).drop n ≠ []) :
    ∃ c, (joinLines ((linesOf text).drop n)).getLast? = some c ∧ c ≠ lineFeed := by
  have behind : ((linesOf text).drop n).getLast? = (linesOf text).getLast? := by
    rw [List.getLast?_drop, if_neg (by simpa using left)]
  obtain ⟨line, is_last⟩ := Option.ne_none_iff_exists'.mp (mt List.getLast?_eq_none_iff.mp left)
  have filled : line ≠ [] := last_line_ne_nil last (behind ▸ is_last)
  refine ⟨line.getLast filled, ?_, ?_⟩
  · rw [getLast?_joinLines is_last filled, List.getLast?_eq_some_getLast filled]
  · intro feed
    have plain : lineFeed ∉ line := plain_linesOf text line (List.mem_of_getLast? (behind ▸ is_last))
    exact plain (feed ▸ List.getLast_mem filled)

theorem drop_take_min (lines : List (List Char)) (line after : Nat) :
    (lines.take (min lines.length (line + after))).drop line = (lines.drop line).take after := by
  rw [List.drop_take, List.take_eq_take_iff, List.length_drop]
  omega

theorem drop_length_takeWhile {α : Type} (p : α → Bool) (list : List α) :
    list.drop (list.takeWhile p).length = list.dropWhile p := by
  induction list with
  | nil => rfl
  | cons a list ih =>
    rw [List.takeWhile_cons, List.dropWhile_cons]
    by_cases h : p a = true
    · rw [if_pos h, if_pos h]
      exact ih
    · rw [if_neg h, if_neg h]
      rfl

/-! ## Cutting cells by the numbers of their lines -/

variable {place : Place} {text : List Char} {lines : List (List Char)}

theorem line_placeBehind_plain {line : List Char} (plain : lineFeed ∉ line) (place : Place) :
    (placeBehind place line).line = place.line := by
  rw [line_placeBehind, List.count_eq_zero.mpr plain, Nat.add_zero]

/-- The cells of a line and of the line feed behind it have one number. -/
theorem forall_mem_closed {line : List Char} (plain : lineFeed ∉ line) {q : Nat → Bool}
    (h : q place.line = true) :
    ∀ cell ∈ cellsFrom place (line ++ [lineFeed]), q cell.place.line = true := by
  induction line generalizing place with
  | nil =>
    intro cell member
    rw [List.mem_singleton.mp member]
    exact h
  | cons c line ih =>
    rw [List.mem_cons, not_or] at plain
    obtain ⟨other, plain⟩ := plain
    refine List.forall_mem_cons.mpr ⟨h, ih plain ?_⟩
    rw [Place.after, if_neg (Ne.symm other)]
    exact h

theorem forall_mem_plain {line : List Char} (plain : lineFeed ∉ line) {q : Nat → Bool}
    (h : q place.line = true) : ∀ cell ∈ cellsFrom place line, q cell.place.line = true := by
  intro cell member
  refine forall_mem_closed plain h cell ?_
  rw [cellsFrom_append]
  exact List.mem_append_left _ member

theorem takeWhile_cellsFrom_of_lt {last : Nat} (above : last < place.line) (text : List Char) :
    (cellsFrom place text).takeWhile (fun cell => cell.place.line ≤ last) = [] := by
  cases text with
  | nil => rfl
  | cons c text => exact List.takeWhile_cons_of_neg (by simpa using above)

theorem dropWhile_cellsFrom_of_le {first : Nat} (reached : first ≤ place.line) (text : List Char) :
    (cellsFrom place text).dropWhile (fun cell => cell.place.line < first) =
      cellsFrom place text := by
  cases text with
  | nil => rfl
  | cons c text => exact List.dropWhile_cons_of_neg (by simpa using reached)

theorem cellsFrom_joinLines_cons {line : List Char} (more : lines ≠ []) (plain : lineFeed ∉ line) :
    cellsFrom place (joinLines (line :: lines)) =
      cellsFrom place (line ++ [lineFeed]) ++ cellsFrom ⟨place.line + 1, 1⟩ (joinLines lines) := by
  have behind : placeBehind place (line ++ [lineFeed]) = ⟨place.line + 1, 1⟩ := by
    rw [← line_placeBehind_plain plain place, placeBehind, List.foldl_append]
    rfl
  rw [joinLines_cons more, List.append_cons, cellsFrom_append, behind]

/-- Walking the cells up to line `last` takes whole lines, each with its line feed, unless it takes
all of the text. -/
theorem takeWhile_cellsFrom_joinLines (plain : Plain lines) (place : Place) (last : Nat) :
    ((cellsFrom place (joinLines lines)).takeWhile fun cell => cell.place.line ≤ last).map
        Cell.scalar =
      if last + 1 - place.line < lines.length then closeLines (lines.take (last + 1 - place.line))
      else joinLines lines := by
  induction lines generalizing place with
  | nil => rfl
  | cons line lines ih =>
    by_cases above : last < place.line
    · rw [takeWhile_cellsFrom_of_lt above, show last + 1 - place.line = 0 by omega]
      rfl
    · obtain ⟨taken, count⟩ : ∃ taken, last + 1 - place.line = taken + 1 :=
        ⟨last - place.line, by omega⟩
      obtain ⟨bare, others⟩ := List.forall_mem_cons.mp plain
      have low : decide (place.line ≤ last) = true := decide_eq_true (Nat.not_lt.mp above)
      by_cases single : lines = []
      · subst single
        have whole : ∀ cell ∈ cellsFrom place line, decide (cell.place.line ≤ last) = true :=
          forall_mem_plain bare (q := fun number => decide (number ≤ last)) low
        rw [joinLines_singleton, List.takeWhile_eq_self_iff.mpr whole, map_scalar_cellsFrom, count,
          if_neg (by simp)]
      · have whole : ∀ cell ∈ cellsFrom place (line ++ [lineFeed]),
            decide (cell.place.line ≤ last) = true :=
          forall_mem_closed bare (q := fun number => decide (number ≤ last)) low
        rw [cellsFrom_joinLines_cons single bare, List.takeWhile_append_of_pos whole,
          List.map_append, map_scalar_cellsFrom, ih others,
          show last + 1 - (place.line + 1) = taken by omega, count, List.length_cons,
          List.take_succ_cons, closeLines_cons, joinLines_cons single, List.append_assoc]
        by_cases more : taken < lines.length
        · rw [if_pos more, if_pos (by omega)]
          rfl
        · rw [if_neg more, if_neg (by omega)]
          rfl

/-- Passing over the cells above line `first` drops whole lines, and the next line begins there. -/
theorem dropWhile_cellsFrom_joinLines (plain : Plain lines) (line first : Nat) :
    (cellsFrom ⟨line, 1⟩ (joinLines lines)).dropWhile (fun cell => cell.place.line < first) =
      cellsFrom ⟨line + (first - line), 1⟩ (joinLines (lines.drop (first - line))) := by
  induction lines generalizing line with
  | nil => simp [cellsFrom]
  | cons text lines ih =>
    by_cases reached : first ≤ line
    · rw [dropWhile_cellsFrom_of_le reached, show first - line = 0 by omega]
      rfl
    · obtain ⟨dropped, count⟩ : ∃ dropped, first - line = dropped + 1 := ⟨first - line - 1, by omega⟩
      obtain ⟨bare, others⟩ := List.forall_mem_cons.mp plain
      have high : decide (line < first) = true := decide_eq_true (Nat.not_le.mp reached)
      by_cases single : lines = []
      · subst single
        have passed : ∀ cell ∈ cellsFrom ⟨line, 1⟩ text,
            decide (cell.place.line < first) = true :=
          forall_mem_plain bare (q := fun number => decide (number < first)) high
        rw [joinLines_singleton, List.dropWhile_eq_nil_iff.mpr passed, count]
        simp [cellsFrom]
      · have passed : ∀ cell ∈ cellsFrom ⟨line, 1⟩ (text ++ [lineFeed]),
            decide (cell.place.line < first) = true :=
          forall_mem_closed bare (q := fun number => decide (number < first)) high
        rw [cellsFrom_joinLines_cons single bare, List.dropWhile_append_of_pos passed, ih others,
          count, List.drop_succ_cons, show first - (line + 1) = dropped by omega,
          show line + 1 + dropped = line + (dropped + 1) by omega]

end UnicodeInput.Document
