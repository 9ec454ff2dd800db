import UnicodeInput.Proofs.Codec.Bytes
import UnicodeInput.Proofs.Document.Layout

/-! Every way to make a document ends in the same machine, fed with the scalar values of some text. So
what a document is like can be said of all documents at once: it lays out its own content, which does
not end in a line feed. -/
namespace UnicodeInput

namespace Codec

variable {σ β : Type} [ByteSource σ]

theorem Decoder.exists_foldl_of_foldUpTo {f : β → Char → β} {n : Nat} {acc out : β}
    {decoder rest : Decoder σ} (run : foldUpTo f n acc decoder = .ok out rest) :
    ∃ scalars : List Char, out = scalars.foldl f acc := by
  induction n generalizing acc decoder with
  | zero =>
    cases run
    exact ⟨[], rfl⟩
  | succ n ih =>
    rw [foldUpTo] at run
    cases h : decoder.next with
    | mk item after =>
      rw [h] at run
      cases item with
      | none =>
        cases run
        exact ⟨[], rfl⟩
      | some item =>
        cases item with
        | error e => cases run
        | ok c =>
          obtain ⟨scalars, result⟩ := ih run
          exact ⟨c :: scalars, result⟩

/-- Whatever the source does, what a run that succeeds has folded is a list of scalar values. -/
theorem exists_foldl_of_foldScalars {encoding : Encoding} {f : β → Char → β} {acc out : β}
    {source rest : σ} (run : foldScalars encoding f acc source = .ok out rest) :
    ∃ scalars : List Char, out = scalars.foldl f acc := by
  unfold foldScalars at run
  dsimp only at run
  cases h : Decoder.foldUpTo f (Decoder.steps ⟨source, encoding, false⟩) acc
      ⟨source, encoding, false⟩ with
  | error e decoder =>
    rw [h] at run
    cases run
  | ok out' decoder =>
    rw [h] at run
    cases run
    exact Decoder.exists_foldl_of_foldUpTo h

end Codec

namespace Document

open Codespace (lineFeed)

inductive Built : Document → Prop
  | ofScalars {scalars : List Char} {options : Options} {document : Document} :
      Document.ofScalars scalars options = .ok document → Built document
  | ofText {text : String} {options : Options} {document : Document} :
      Document.ofText text options = .ok document → Built document
  | ofBytes {encoding : Encoding} {bytes : List UInt8} {options : Options} {document : Document} :
      Document.ofBytes encoding bytes options = .ok document → Built document
  | ofSource {σ : Type} [ByteSource σ] {encoding : Encoding} {options : Options} {source rest : σ}
      {document : Document} :
      Document.ofSource encoding options source = .ok document rest → Built document

/-- A text laid out as documents lay out theirs. -/
structure Laid (document : Document) (text : List Char) : Prop where
  eq_laidOut : document = laidOut text document.options
  last : text.getLast? ≠ some lineFeed
  effective : document.options.effective = document.options

theorem getLast?_trimFeeds (text : List Char) : (trimFeeds text).getLast? ≠ some lineFeed := by
  intro feed
  have nonempty : trimFeeds text ≠ [] := by
    intro empty
    rw [empty] at feed
    cases feed
  rw [List.getLast?_eq_some_getLast nonempty] at feed
  exact List.rdropWhile_last_not (· == lineFeed) text nonempty
    (beq_iff_eq.mpr (Option.some.inj feed))

theorem effective_effective (options : Options) : options.effective.effective = options.effective := by
  simp [Options.effective]

theorem exists_ofScalars_of_ofSource {σ : Type} [ByteSource σ] {encoding : Encoding}
    {options : Options} {source rest : σ} {document : Document}
    (made : ofSource encoding options source = .ok document rest) :
    ∃ scalars, ofScalars scalars options = .ok document := by
  obtain ⟨layout, after, folded, finished⟩ := bind_eq_ok_iff.mp made
  obtain ⟨scalars, rfl⟩ :=
    Codec.exists_foldl_of_foldScalars (adaptExcept_eq_ok_iff.mp folded)
  refine ⟨scalars, ?_⟩
  show Layout.document _ options = .ok document
  cases h : Layout.document (scalars.foldl Layout.add {}) options with
  | error e =>
    rw [h] at finished
    cases finished
  | ok document' =>
    rw [h] at finished
    cases finished
    rfl

/-- Every document is that of some scalar values. -/
theorem Built.exists_ofScalars {document : Document} (built : Built document) :
    ∃ scalars options, Document.ofScalars scalars options = .ok document := by
  cases built with
  | ofScalars made => exact ⟨_, _, made⟩
  | ofText made => exact ⟨_, _, made⟩
  | ofSource made =>
    obtain ⟨scalars, made⟩ := exists_ofScalars_of_ofSource made
    exact ⟨scalars, _, made⟩
  | @ofBytes encoding bytes options _ made =>
    unfold Document.ofBytes at made
    cases run : Document.ofSource encoding options (MemorySource.ofBytes bytes) with
    | error e rest =>
      rw [run] at made
      cases made
    | ok document' rest =>
      rw [run] at made
      cases made
      obtain ⟨scalars, made⟩ := exists_ofScalars_of_ofSource run
      exact ⟨scalars, _, made⟩

/-- Every document lays out a text that does not end in a line feed, with options in effect. -/
theorem Built.exists_laid {document : Document} (built : Built document) :
    ∃ text, document.Laid text := by
  obtain ⟨scalars, options, made⟩ := built.exists_ofScalars
  obtain ⟨-, rfl⟩ := ofScalars_eq_ok_iff.mp made
  exact ⟨_, rfl, getLast?_trimFeeds _, effective_effective options⟩

end Document

end UnicodeInput
