import KnowledgeBase.Redaction

/-! What the extractors hand to the later stages: units, headings, tables and figures, the
Word and PDF extractors that fill them, and the pictures' readings merged into them. How a
file's bytes become blocks, pages and readings is a parameter. -/

namespace KnowledgeBase.Artifact

/-- The tables of the Unicode standard, with what the patterns rely on: a newline and a blank
are spaces, and what ASCII prints is not. -/
structure Tables extends Unicode where
  nfkc : Text → Text
  sameLetter : Char → Char → Bool
  isSpace_newline : isSpace '\n' = true
  isSpace_blank : isSpace ' ' = true
  isSpace_graphic : ∀ c, '!' ≤ c → c ≤ '~' → isSpace c = false

theorem ascii_graphic (c : Char) (h1 : '!' ≤ c) (h2 : c ≤ '~') : ascii.isSpace c = false := by
  simp only [ascii, Bool.or_eq_false_iff, Bool.and_eq_false_iff, Char.le_def,
    UInt32.le_iff_toNat_le, decide_eq_false_iff_not] at *
  refine ⟨?_, .inr ?_⟩
  · rintro rfl
    simp at h1
  · intro h
    have := h1.trans h
    simp at this

def asciiTables : Tables :=
  { ascii with
    nfkc := id
    sameLetter := fun a b => a.toLower = b.toLower
    isSpace_newline := by decide
    isSpace_blank := by decide
    isSpace_graphic := ascii_graphic }

def pdfMime : String := "application/pdf"

def xlsxMime : String := "application/vnd.openxmlformats-officedocument.spreadsheetml.sheet"

def pptxMime : String := "application/vnd.openxmlformats-officedocument.presentationml.presentation"

structure Heading where
  text : Text
  level : Nat
  unitIndex : Int
  deriving DecidableEq

/-- How a text was obtained. -/
inductive Method where
  | native
  | ocr
  | mixed
  deriving DecidableEq

structure ExtractedUnit where
  index : Int
  label : Text
  text : Text
  method : Method := .native
  textIsTable : Bool := false

structure ExtractedTable where
  unitIndex : Int
  rows : List (List Text)
  heading : Option Text := none
  deriving DecidableEq

structure ExtractedFigure where
  unitIndex : Int
  text : Text
  caption : Option Text := none
  heading : Option Text := none
  deriving DecidableEq

structure ExtractedContent where
  units : List ExtractedUnit
  headings : List Heading
  tables : List ExtractedTable
  /-- The pages OCR was needed on and read, and those left unread for the budget. -/
  ocrPages : List Int := []
  ocrSkippedPages : List Int := []
  ocrUnreadableLines : List (Int × Nat) := []
  figures : List ExtractedFigure := []

structure ExtractionResult where
  documentId : Nat
  mimeType : String
  units : List ExtractedUnit
  headings : List Heading
  tables : List ExtractedTable
  ocrPages : List Int := []
  ocrSkippedPages : List Int := []
  ocrUnreadableLines : List (Int × Nat) := []
  figures : List ExtractedFigure

/-- `sep.join(parts)`. -/
def join (sep : String) (parts : List Text) : Text := sep.toList.intercalate parts

def tableHasContent (rows : List (List Text)) : Bool := rows.any (·.any (· ≠ []))

variable (u : Tables)

abbrev trim (text : Text) : Text := strip u.toUnicode text

/-- From what the pages needed. -/
def ExtractionResult.resolveMethod (result : ExtractionResult) : Method :=
  if result.ocrPages = [] then .native
  else
    let readable := result.units.filter fun unit => trim u unit.text ≠ []
    if readable ≠ [] ∧ readable.length ≤ result.ocrPages.length then .ocr else .mixed

section Pictures

def tableNotice : Text :=
  "table read from a picture by OCR; check against the original before citing".toList

/-- The words a passage from a picture begins with. -/
def figureNotice : Text := "[Figure] (text read from a picture by OCR)".toList

def unreadableNotice (count : Nat) (place : String) : Text :=
  let lines := if count = 1 then "line" else "lines"
  s!"[{count} {lines} {place} could not be read reliably by OCR; check the original]".toList

def noticeCaption (title : Text) : Text :=
  if trim u title ≠ [] then trim u title ++ " (".toList ++ tableNotice ++ ")".toList
  else "(".toList ++ tableNotice ++ ")".toList

def withOcrNotice (rows : List (List Text)) (title : Text) : List (List Text) :=
  let width := (rows.map List.length).max?.getD 1
  (noticeCaption u title :: List.replicate (width - 1) []) :: rows

/-- What one picture said. -/
structure PictureText where
  unitIndex : Int
  text : Text
  caption : Option Text
  heading : Option Text
  tables : List (List (List Text))

/-- `text or None` of an optional text. -/
def truthy (text : Option Text) : Option Text := text.filter (· ≠ [])

/-- The first heading of a unit. -/
def unitTitle (content : ExtractedContent) (unit : Int) : Option Text :=
  (content.headings.find? (·.unitIndex = unit)).map (·.text)

/-- The text of the last heading that reads the same. -/
def ownHeading (content : ExtractedContent) (needle : Text) : Option Text :=
  (content.headings.reverse.find? (fun h => trim u h.text = needle)).map (·.text)

/-- The unit a picture lands in. -/
def pictureUnit (content : ExtractedContent) (picture : PictureText) : Option Int :=
  let known := content.units.map (·.index)
  if picture.unitIndex ∈ known then some picture.unitIndex else known.min?

/-- The section a picture lands in. -/
def pictureSection (content : ExtractedContent) (picture : PictureText) (unit : Int) :
    Option Text :=
  let seen := (truthy picture.heading).map fun h => (ownHeading u content (trim u h)).getD h
  if 1 < content.headings.countP (·.unitIndex = unit) then seen
  else (truthy (unitTitle content unit)).orElse (fun _ => seen)

def mergePicture (content merged : ExtractedContent) (picture : PictureText) : ExtractedContent :=
  match pictureUnit content picture with
  | none => merged
  | some unit =>
    let heading := pictureSection u content picture unit
    { merged with
      tables := merged.tables ++ picture.tables.map fun rows => { unitIndex := unit, rows, heading }
      figures := merged.figures ++
        (if trim u picture.text ≠ [] ∨ (truthy picture.caption).isSome then
          [{ unitIndex := unit, text := trim u picture.text, caption := picture.caption, heading }]
        else []) }

/-- The titles, counts and names the loop uses are read before it. -/
def mergePictures (content : ExtractedContent) (pictures : List PictureText) : ExtractedContent :=
  pictures.foldl (mergePicture u content) content

end Pictures

namespace DocxTextExtractor

/-- A block of the body, with the charts and the SmartArt it refers to. -/
inductive Block where
  | paragraph (charts : List (List (List Text))) (smartArt : List (List Text)) (text : Text)
      (level : Option Nat) (textBoxes : List Text)
  | table (charts : List (List (List Text))) (smartArt : List (List Text))
      (rows : List (List Text))

structure State where
  paragraphs : List Text := []
  headings : List Heading := []
  tables : List ExtractedTable := []
  current : Option Text := none

def addTable (st : State) (rows : List (List Text)) : State :=
  { st with tables := st.tables ++ [{ unitIndex := 1, rows, heading := st.current }] }

/-- The charts and the SmartArt of a block come before its own text. -/
def addParts (st : State) (charts : List (List (List Text))) (smartArt : List (List Text)) : State :=
  let st := (charts.filter (· ≠ [])).foldl addTable st
  { st with paragraphs := st.paragraphs ++ smartArt.flatten }

def addBlock (st : State) : Block → State
  | .table charts smartArt rows =>
    let st := addParts st charts smartArt
    let rows := rows.map (·.map (trim u))
    if tableHasContent rows then addTable st rows else st
  | .paragraph charts smartArt text level textBoxes =>
    let st := addParts st charts smartArt
    let text := trim u text
    let st := if text = [] then st else
      match level with
      | none => { st with paragraphs := st.paragraphs ++ [text] }
      | some level =>
        { st with paragraphs := st.paragraphs ++ [text],
                  headings := st.headings ++ [{ text, level, unitIndex := 1 }],
                  current := some text }
    { st with paragraphs := st.paragraphs ++ textBoxes }

def extract (blocks : List Block) (notes : List Text) : ExtractedContent :=
  let st := blocks.foldl (addBlock u) {}
  let paragraphs :=
    if notes = [] then st.paragraphs else st.paragraphs ++ ["Notes:\n".toList ++ join "\n" notes]
  { units := [{ index := 1, label := "Document".toList, text := join "\n" paragraphs }],
    headings := st.headings, tables := st.tables }

end DocxTextExtractor

namespace PdfTextExtractor

/-- The lines an OCR pass reads on a page, and how many it found but could not read. -/
structure PageReading where
  lines : List Text
  unreadable : Nat

/-- The ruled tables found on the picture of a page, and the lines outside them. -/
structure TableReading where
  tables : List (List (List Text) × Text)
  lines : List Text

/-- `rendered`: there is an engine, and the page could be drawn for it. -/
structure Page where
  text : Text
  images : Bool
  rendered : Bool := true
  reading : Option PageReading
  ruled : Option TableReading
  rawTables : List (List (List (Option Text)))

def needsOcr (minNativeChars : Nat) (page : Page) : Bool :=
  (trim u page.text).length < minNativeChars && page.images

def scanTables (page : Page) (index : Int) : List ExtractedTable × Text :=
  match page.ruled with
  | none => ([], [])
  | some reading =>
    if reading.tables = [] then ([], [])
    else (reading.tables.map fun t => { unitIndex := index, rows := withOcrNotice u t.1 t.2 },
      join "\n" reading.lines)

/-- What the engine reads on a page, `none` where it was not asked or raised. -/
def Page.read (page : Page) : Option PageReading := if page.rendered then page.reading else none

/-- The text of a page read by OCR, and the tables on it. -/
def ocrPage (page : Page) (index : Int) : Text × List ExtractedTable :=
  match page.read with
  | none => ([], [])
  | some read =>
    let text := join "\n" read.lines
    let (found, rest) := if text = [] then ([], []) else scanTables u page index
    let text := if found = [] then text else rest
    let text := if text ≠ [] ∧ 0 < read.unreadable then
      text ++ "\n".toList ++ unreadableNotice read.unreadable "on this page" else text
    (text, found)

def cleanCell (cell : Option Text) : Text :=
  match cell with
  | none => []
  | some text => trim u text

structure State where
  units : List ExtractedUnit := []
  tables : List ExtractedTable := []
  ocrPages : List Int := []
  skippedPages : List Int := []
  unreadableLines : List (Int × Nat) := []
  ocrBudget : Nat

/-- The lines an asked engine found on a page and could not read. -/
def unreadable (page : Page) : Nat := (page.read.map (·.unreadable)).getD 0

def addPage (minNativeChars : Nat) (st : State) (page : Page) : State :=
  let index : Int := st.units.length + 1
  let asked := needsOcr u minNativeChars page ∧ 0 < st.ocrBudget
  let (read, scanned) := if asked then ocrPage u page index else ([], [])
  let ruled := (page.rawTables.map (·.map (·.map (cleanCell u)))).filter tableHasContent
  let text := if read = [] then page.text else read
  { units := st.units ++ [{ index, label := s!"Page {index}".toList, text,
                            method := if read = [] then .native else .ocr }],
    tables := st.tables ++ scanned ++ ruled.map (fun rows => { unitIndex := index, rows }),
    ocrPages := if read = [] then st.ocrPages else st.ocrPages ++ [index],
    skippedPages := if needsOcr u minNativeChars page ∧ st.ocrBudget = 0 then
      st.skippedPages ++ [index] else st.skippedPages,
    unreadableLines := if asked ∧ 0 < unreadable page then
      st.unreadableLines ++ [(index, unreadable page)] else st.unreadableLines,
    ocrBudget := if read = [] then st.ocrBudget else st.ocrBudget - 1 }

/-- The headings come from font sizes and subject lines. -/
def extract (minNativeChars maxPages : Nat) (headings : List Heading) (pages : List Page) :
    ExtractedContent :=
  let st := pages.foldl (addPage u minNativeChars) { ocrBudget := maxPages }
  { units := st.units, headings, tables := st.tables, ocrPages := st.ocrPages,
    ocrSkippedPages := st.skippedPages, ocrUnreadableLines := st.unreadableLines }

end PdfTextExtractor

def extractionResult (documentId : Nat) (mimeType : String) (content : ExtractedContent) :
    ExtractionResult :=
  { documentId, mimeType, units := content.units, headings := content.headings,
    tables := content.tables, ocrPages := content.ocrPages,
    ocrSkippedPages := content.ocrSkippedPages, ocrUnreadableLines := content.ocrUnreadableLines,
    figures := content.figures }

end KnowledgeBase.Artifact
