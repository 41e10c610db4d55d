import KnowledgeBase.Normalization

/-! The gate counts the text of the units alone. What a table or a figure says does not count,
so it passes where the extractor wrote some of it out as a unit's text as well. -/

namespace KnowledgeBase.Artifact

variable (s : NormalizationService)

/-- Some table has a cell, or some figure has text, that cleaning leaves. -/
def Readable (extraction : ExtractionResult) : Prop :=
  (∃ table ∈ extraction.tables, ∃ row ∈ table.rows, ∃ cell ∈ row, s.clean cell ≠ []) ∨
    ∃ figure ∈ extraction.figures, s.clean figure.text ≠ []

/-- Some unit has text that cleaning leaves. -/
def SaysSomething (units : List ExtractedUnit) : Prop := ∃ unit ∈ units, s.clean unit.text ≠ []

theorem QualityChecker.emptyText_mem_iff (n : Int) (units : List NormalizedUnit) (mime : String) :
    .emptyText ∈ (QualityChecker.check n units mime).failures ↔ ∀ unit ∈ units, unit.text = [] := by
  have hsum : (units.map (·.text.length)).sum = 0 ↔ ∀ unit ∈ units, unit.text = [] := by
    simp [List.sum_eq_zero_iff]
  rw [← hsum]
  unfold QualityChecker.check
  by_cases h : (units.map (·.text.length)).sum = 0
  · simp [h]
  · simp only [h, if_false, iff_false]
    split
    · dsimp only
      split <;> simp
    · simp

theorem rejected_empty_iff (extraction : ExtractionResult) :
    .emptyText ∈ (s.normalize extraction).quality.failures ↔ ¬ SaysSomething s extraction.units := by
  simp [NormalizationService.normalize, QualityChecker.emptyText_mem_iff,
    NormalizationService.cleanUnit, SaysSomething]

/-- Readable content passes the gate exactly where some unit's text holds some of it. -/
theorem readable_not_empty_iff (extraction : ExtractionResult) :
    (Readable s extraction → .emptyText ∉ (s.normalize extraction).quality.failures) ↔
      (Readable s extraction → SaysSomething s extraction.units) := by
  rw [rejected_empty_iff, not_not]

section Sources

theorem mergePicture_units (u : Tables) (content merged : ExtractedContent) (p : PictureText) :
    (mergePicture u content merged p).units = merged.units := by
  unfold mergePicture
  split <;> rfl

/-- A picture gives the gate nothing to read. -/
theorem mergePictures_units (u : Tables) (content : ExtractedContent) (ps : List PictureText) :
    (mergePictures u content ps).units = content.units := by
  have h : ∀ merged : ExtractedContent,
      (ps.foldl (mergePicture u content) merged).units = merged.units := by
    induction ps with
    | nil => exact fun _ => rfl
    | cons p ps ih => exact fun merged => (ih _).trans (mergePicture_units u content merged p)
  exact h content

namespace DocxTextExtractor

/-- A block that adds no line to the body's text. -/
def Wordless (u : Tables) : Block → Prop
  | .table _ smartArt _ => smartArt.flatten = []
  | .paragraph _ smartArt text _ textBoxes =>
    smartArt.flatten = [] ∧ trim u text = [] ∧ textBoxes = []

variable {u : Tables}

theorem addParts_paragraphs (st : State) (charts : List (List (List Text)))
    (smartArt : List (List Text)) :
    (addParts st charts smartArt).paragraphs = st.paragraphs ++ smartArt.flatten := by
  have h : ∀ (rows : List (List (List Text))) (st : State),
      (rows.foldl addTable st).paragraphs = st.paragraphs := by
    intro rows
    induction rows with
    | nil => exact fun _ => rfl
    | cons r rows ih => exact fun st => ih _
  simp [addParts, h]

theorem addBlock_wordless (st : State) {b : Block} (hb : Wordless u b) :
    (addBlock u st b).paragraphs = st.paragraphs := by
  cases b with
  | table charts smartArt rows =>
    have hart : smartArt.flatten = [] := hb
    simp only [addBlock]
    split <;> simp [addTable, addParts_paragraphs, hart]
  | paragraph charts smartArt text level textBoxes =>
    obtain ⟨hart, htext, hboxes⟩ := hb
    simp [addBlock, addParts_paragraphs, hart, htext, hboxes]

/-- A Word file of tables, with no line of text beside them, has a unit without text. -/
theorem extract_wordless {blocks : List Block} (h : ∀ b ∈ blocks, Wordless u b) :
    (extract u blocks []).units = [{ index := 1, label := "Document".toList, text := [] }] := by
  have hfold : ∀ st : State, (blocks.foldl (addBlock u) st).paragraphs = st.paragraphs := by
    induction blocks with
    | nil => exact fun _ => rfl
    | cons b bs ih =>
      intro st
      rw [List.foldl_cons, ih (fun b hb => h b (by simp [hb])), addBlock_wordless st (h b (by simp))]
  simp [extract, hfold, join]

end DocxTextExtractor

/-- A Word file of tables is rejected as empty, whatever the tables say. -/
theorem wordless_rejected (documentId : Nat) (mimeType : String)
    {blocks : List DocxTextExtractor.Block} (h : ∀ b ∈ blocks, DocxTextExtractor.Wordless s.tables b) :
    .emptyText ∈ (s.normalize (extractionResult documentId mimeType
      (DocxTextExtractor.extract s.tables blocks []))).quality.failures := by
  rw [rejected_empty_iff, extractionResult, DocxTextExtractor.extract_wordless h]
  simp [SaysSomething, NormalizationService.clean, TextCleaner.clean]

namespace PdfTextExtractor

/-- A page without a text layer that is nothing but ruled tables. -/
def Tabular (page : Page) : Prop :=
  page.text = [] ∧ ∃ reading, page.ruled = some reading ∧ reading.tables ≠ [] ∧ reading.lines = []

variable {u : Tables}

theorem ocrPage_tabular {page : Page} (h : Tabular page) (index : Int) :
    (ocrPage u page index).1 = [] := by
  obtain ⟨-, reading, hruled, htables, hlines⟩ := h
  unfold ocrPage
  split
  · rfl
  · rename_i read _
    by_cases htext : join "\n" read.lines = []
    · simp [htext]
    · have hscan : scanTables u page index =
          (reading.tables.map fun t => { unitIndex := index, rows := withOcrNotice u t.1 t.2 },
            []) := by
        simp [scanTables, hruled, htables, hlines, join]
      simp [htext, hscan, htables]

theorem extract_tabular (minNativeChars maxPages : Nat) (headings : List Heading)
    {pages : List Page} (h : ∀ page ∈ pages, Tabular page) :
    ∀ unit ∈ (extract u minNativeChars maxPages headings pages).units, unit.text = [] := by
  have hstep : ∀ (st : State) (page : Page), Tabular page → (∀ unit ∈ st.units, unit.text = []) →
      ∀ unit ∈ (addPage u minNativeChars st page).units, unit.text = [] := by
    intro st page hpage hst unit hunit
    have hread : (if needsOcr u minNativeChars page ∧ 0 < st.ocrBudget
        then ocrPage u page (st.units.length + 1) else ([], [])).1 = [] := by
      split
      · exact ocrPage_tabular hpage _
      · rfl
    simp only [addPage, hread, if_true, hpage.1, List.mem_append, List.mem_singleton] at hunit
    rcases hunit with hunit | rfl
    · exact hst unit hunit
    · rfl
  have hrun : ∀ st : State, (∀ unit ∈ st.units, unit.text = []) →
      ∀ unit ∈ (pages.foldl (addPage u minNativeChars) st).units, unit.text = [] := by
    induction pages with
    | nil => exact fun _ hst => hst
    | cons page pages ih =>
      exact fun st hst => ih (fun p hp => h p (by simp [hp])) _ (hstep st page (h page (by simp)) hst)
  exact hrun _ (by simp)

end PdfTextExtractor

/-- A scan of ruled tables is rejected as empty, whatever the tables say. -/
theorem tabular_rejected (documentId minNativeChars maxPages : Nat) (mimeType : String)
    (headings : List Heading) {pages : List PdfTextExtractor.Page}
    (h : ∀ page ∈ pages, PdfTextExtractor.Tabular page) :
    .emptyText ∈ (s.normalize (extractionResult documentId mimeType (PdfTextExtractor.extract
      s.tables minNativeChars maxPages headings pages))).quality.failures := by
  rw [rejected_empty_iff]
  rintro ⟨unit, hunit, hne⟩
  have htext := PdfTextExtractor.extract_tabular minNativeChars maxPages headings h unit hunit
  simp [htext, NormalizationService.clean, TextCleaner.clean] at hne

end Sources

def asciiService : NormalizationService :=
  { tables := asciiTables, minPdfCharsPerPage := 50, langdetect := fun _ => none }

def wordTable : ExtractionResult :=
  extractionResult 1 "application/vnd.openxmlformats-officedocument.wordprocessingml.document"
    (DocxTextExtractor.extract asciiTables [.table [] [] [["Mar".toList], ["341".toList]]] [])

def scannedTable : ExtractionResult :=
  extractionResult 1 pdfMime (PdfTextExtractor.extract asciiTables 20 500 []
    [{ text := [], images := true, reading := some ⟨["Mar".toList, "341".toList], 0⟩,
       ruled := some ⟨[([["Mar".toList], ["341".toList]], [])], []⟩, rawTables := [] }])

/-- The load of a month is in the table, and the document is rejected as empty. -/
theorem tables_only_rejected :
    (Readable asciiService wordTable ∧
      .emptyText ∈ (asciiService.normalize wordTable).quality.failures) ∧
    Readable asciiService scannedTable ∧
      .emptyText ∈ (asciiService.normalize scannedTable).quality.failures := by
  refine ⟨⟨.inl ?_, by decide +kernel⟩, .inl ?_, by decide +kernel⟩
  · exact ⟨_, .head _, _, .tail _ (.head _), "341".toList, by decide, by decide +kernel⟩
  · exact ⟨_, .head _, _, .tail _ (.tail _ (.head _)), "341".toList, by decide, by decide +kernel⟩

end KnowledgeBase.Artifact
