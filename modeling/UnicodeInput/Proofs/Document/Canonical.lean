import UnicodeInput.Proofs.Document.Built

/-! Documents are canonical. A document is what its text and its options make it: the cells, the places
and the end follow from the text, however it came. A text laid out once has no carriage return and no line
feed at its end, so laying it out again changes nothing. -/
namespace UnicodeInput.Document

open Codespace (lineFeed carriageReturn)

/-! ## The text of a document, laid out again -/

theorem return_not_mem_unifyFeeds (text : List Char) : carriageReturn ∉ unifyFeeds text := by
  intro found
  obtain ⟨c, -, same⟩ := List.mem_map.mp found
  by_cases returns : c = carriageReturn
  · rw [if_pos returns] at same
    exact absurd same (by decide)
  · rw [if_neg returns] at same
    exact returns same

theorem unifyFeeds_of_not_mem {text : List Char} (plain : carriageReturn ∉ text) :
    unifyFeeds text = text := by
  induction text with
  | nil => rfl
  | cons c text ih =>
    obtain ⟨other, plain⟩ := List.ne_and_not_mem_of_not_mem_cons plain
    rw [unifyFeeds_cons (Ne.symm other), ih plain]

/-- Unified terminators stay so without the last of them, and then there are no more to drop. -/
theorem trimFeeds_unifyFeeds_idem (text : List Char) :
    trimFeeds (unifyFeeds (trimFeeds (unifyFeeds text))) = trimFeeds (unifyFeeds text) := by
  have plain : carriageReturn ∉ trimFeeds (unifyFeeds text) := fun found =>
    return_not_mem_unifyFeeds text ((List.rdropWhile_prefix _ _).subset found)
  rw [unifyFeeds_of_not_mem plain]
  exact List.rdropWhile_idempotent _ _

/-! ## The document of a text -/

theorem laidOut_inj {one other : List Char} {options others : Options} :
    laidOut one options = laidOut other others ↔ one = other ∧ options = others := by
  constructor
  · intro same
    have text := congrArg content same
    rw [content_laidOut, content_laidOut] at text
    exact ⟨text, congrArg Document.options same⟩
  · rintro ⟨rfl, rfl⟩
    rfl

theorem Laid.content_eq {document : Document} {text : List Char} (laid : document.Laid text) :
    document.content = text := by
  rw [laid.eq_laidOut, content_laidOut]

/-- The content and the options of a document are all there is to it. -/
theorem Built.eq_iff {one other : Document} (built : Built one) (built' : Built other) :
    one = other ↔ one.content = other.content ∧ one.options = other.options := by
  obtain ⟨text, laid⟩ := built.exists_laid
  obtain ⟨text', laid'⟩ := built'.exists_laid
  rw [laid.content_eq, laid'.content_eq, ← laidOut_inj, ← laid.eq_laidOut, ← laid'.eq_laidOut]

/-- The content of a document makes that document. -/
theorem Built.ofScalars_content {document : Document} (built : Built document)
    (nonempty : document.content ≠ []) :
    Document.ofScalars document.content document.options = .ok document := by
  obtain ⟨scalars, options, made⟩ := built.exists_ofScalars
  obtain ⟨-, rfl⟩ := ofScalars_eq_ok_iff.mp made
  refine ofScalars_eq_ok_iff.mpr ⟨nonempty, ?_⟩
  rw [content_laidOut, options_laidOut, trimFeeds_unifyFeeds_idem, effective_effective]

theorem exists_same_document_iff {scalars others : List Char} (some : scalars ≠ [])
    (some' : others ≠ []) (options : Options) :
    (∃ document, ofScalars scalars options = .ok document ∧
      ofScalars others options = .ok document) ↔
      trimFeeds (unifyFeeds scalars) = trimFeeds (unifyFeeds others) := by
  simp only [ofScalars_eq_ok_iff, and_iff_right some, and_iff_right some']
  constructor
  · rintro ⟨document, made, made'⟩
    exact (laidOut_inj.mp (made.trans made'.symm)).1
  · intro same
    exact ⟨_, rfl, by rw [same]⟩

/-- Two documents with the same content and the same options are one, wherever they come from. Two texts
make the same document exactly if they are the same with their line terminators unified and their last
line feeds dropped. The content of a document, if it has any, makes that document again under its own
options; so what is normal already is left alone, and the options in effect stay in effect. -/
theorem built_canonical :
    (∀ one other : Document, Built one → Built other →
      (one = other ↔ one.content = other.content ∧ one.options = other.options)) ∧
    (∀ (scalars others : List Char) (options : Options), scalars ≠ [] → others ≠ [] →
      ((∃ document, ofScalars scalars options = .ok document ∧
        ofScalars others options = .ok document) ↔
          trimFeeds (unifyFeeds scalars) = trimFeeds (unifyFeeds others))) ∧
    (∀ document : Document, Built document → document.content ≠ [] →
      ofScalars document.content document.options = .ok document) ∧
    (∀ text, trimFeeds (unifyFeeds (trimFeeds (unifyFeeds text))) = trimFeeds (unifyFeeds text)) ∧
    (∀ options : Options, options.effective.effective = options.effective) :=
  ⟨fun _ _ built built' => built.eq_iff built',
    fun _ _ options some some' => exists_same_document_iff some some' options,
    fun _ built nonempty => built.ofScalars_content nonempty,
    trimFeeds_unifyFeeds_idem, effective_effective⟩

/-- Two ways to end the lines of one text, under options that are not in effect as they stand. -/
theorem built_canonical_mixed_terminators :
    let mixed := ['a', '\r', '\r', '\n', 'b', '\r', '\n']
    let feeds := ['a', '\n', '\n', 'b']
    let options : Options := { linesBefore := 0 }
    (∃ document, ofScalars mixed options = .ok document ∧ ofScalars feeds options = .ok document) ∧
    ∃ one other, ofScalars mixed options = .ok one ∧ ofScalars feeds options = .ok other ∧
      one = other ∧ ofScalars one.content one.options = .ok one := by
  intro mixed feeds options
  obtain ⟨equal, same, again, -⟩ := built_canonical
  have made : ofScalars mixed options = .ok _ := ofScalars_eq_ok_iff.mpr ⟨by decide, rfl⟩
  have made' : ofScalars feeds options = .ok _ := ofScalars_eq_ok_iff.mpr ⟨by decide, rfl⟩
  refine ⟨(same mixed feeds options (by decide) (by decide)).mpr (by decide), _, _, made, made', ?_, ?_⟩
  · exact (equal _ _ (.ofScalars made) (.ofScalars made')).mpr ⟨by decide, rfl⟩
  · exact again _ (.ofScalars made) (by decide)

end UnicodeInput.Document
