import TypedForest.Codec.Document
import TypedForest.Proofs.Json.Reader

/-!
# Documents are read back from their text

The reader of documents undoes the writer, record by record and field by field, whatever
the texts in the document are and whichever of its optional parts are missing.

## Main Results

* `Document.lossless`: documents and JSON values.
* `Document.document_read_back`: documents and texts, in both layouts.
-/

namespace TypedForest

open Json

theorem Pointer.lossless : Lossless Pointer.ofJson? Pointer.toJson where
  legible p := legible_record (by simp [legible_option_text])
  reads p := by
    simp (disch := simp) only [Pointer.ofJson?, Pointer.toJson, record?_record]
    simp [optional_text]

namespace Document

theorem LanguageUse.lossless : Lossless LanguageUse.ofJson? LanguageUse.toJson where
  legible l := legible_record (by simp [lossless_text.legible])
  reads l := by
    simp (disch := simp) only [LanguageUse.ofJson?, LanguageUse.toJson, record?_record]
    simp [lossless_text.required]

theorem PropertyEntry.lossless : Lossless PropertyEntry.ofJson? PropertyEntry.toJson where
  legible e := legible_record (by simp [Pointer.lossless.legible, legible_option_text])
  reads e := by
    simp (disch := simp) only [PropertyEntry.ofJson?, PropertyEntry.toJson, record?_record]
    simp [Pointer.lossless.required, optional_text]

theorem ContainmentEntry.lossless :
    Lossless ContainmentEntry.ofJson? ContainmentEntry.toJson where
  legible e := legible_record (by
    simp [Pointer.lossless.legible, lossless_text.list.legible])
  reads e := by
    simp (disch := simp) only [ContainmentEntry.ofJson?, ContainmentEntry.toJson, record?_record]
    simp [Pointer.lossless.required, lossless_text.list.required]

theorem Target.lossless : Lossless Target.ofJson? Target.toJson where
  legible t := legible_record (by simp [legible_option_text])
  reads t := by
    simp (disch := simp) only [Target.ofJson?, Target.toJson, record?_record]
    simp [optional_text]

theorem ReferenceEntry.lossless : Lossless ReferenceEntry.ofJson? ReferenceEntry.toJson where
  legible e := legible_record (by
    simp [Pointer.lossless.legible, Target.lossless.list.legible])
  reads e := by
    simp (disch := simp) only [ReferenceEntry.ofJson?, ReferenceEntry.toJson, record?_record]
    simp [Pointer.lossless.required, Target.lossless.list.required]

theorem Record.lossless : Lossless Record.ofJson? Record.toJson where
  legible r := legible_record (by
    simp [lossless_text.legible, Pointer.lossless.legible, PropertyEntry.lossless.list.legible,
      ContainmentEntry.lossless.list.legible, ReferenceEntry.lossless.list.legible,
      legible_option_text])
  reads r := by
    simp (disch := simp) only [Record.ofJson?, Record.toJson, record?_record]
    simp [lossless_text.required, Pointer.lossless.required,
      PropertyEntry.lossless.list.required, ContainmentEntry.lossless.list.required,
      ReferenceEntry.lossless.list.required, optional_text]

/-- **The reader of documents undoes the writer.** -/
theorem lossless : Lossless Document.ofJson? Document.toJson where
  legible d := legible_record (by
    simp [lossless_text.legible, LanguageUse.lossless.list.legible,
      Record.lossless.list.legible])
  reads d := by
    simp (disch := simp) only [Document.ofJson?, Document.toJson, record?_record]
    simp [lossless_text.required, LanguageUse.lossless.list.required,
      Record.lossless.list.required]

/-- **A document is read back from its text**, be it written without blanks or with one
field on a line.  It may hold any texts, quotes, control characters and characters beyond
the basic plane included, any number of records and features, and any of its optional
parts may be missing. -/
theorem document_read_back (d : Document) :
    read? (d.write .compact) = some d ∧ read? (d.write .indented) = some d :=
  ⟨lossless.read?_write .compact d, lossless.read?_write .indented d⟩

end Document

end TypedForest
