import KnowledgeBase.Binary64
import KnowledgeBase.Extraction

/-! Normalization: cleaning the extracted text, tagging its language and the gate on its
quality. -/

namespace KnowledgeBase.Artifact

open Regex Recognizers

variable (u : Tables)

namespace TextCleaner

def invisible : List Char := ['\u200b', '\u200c', '\u200d', '\ufeff', '\u00ad']

def isControl (c : Char) : Bool :=
  (c.toNat < 0x20 && !(['\t', '\n', '\r'].contains c)) || c.toNat = 0x7f

/-- A vertical tab or a form feed is a line break. -/
def lineBreakControl (c : Char) : Char := if c.toNat = 0x0b ∨ c.toNat = 0x0c then '\n' else c

/-- `text.replace("\r\n", "\n").replace("\r", "\n")`. -/
def newlines : Text → Text
  | [] => []
  | '\r' :: '\n' :: text => '\n' :: newlines text
  | c :: text => (if c = '\r' then '\n' else c) :: newlines text

def lineStart : Regex Char := look fun before _ => before.all (· = '\n')

def lineEnd : Regex Char := look fun _ after => after.all (· = '\n')

def textEnd : Regex Char := look fun _ after => after.isNone

def tabOrBlank : Regex Char := cls fun c => c = ' ' || c = '\t'

def dash : Regex Char := cls fun c => ['-', '–', '—'].contains c

/-- A word of the pattern, in any case. -/
def word (w : String) : Regex Char := concat (w.toList.map fun c => cls (u.sameLetter c))

/-- A line that is only a continuation marker or a page number, with its newline. -/
def pageFurniture : Regex Char :=
  let dotted := star (cls fun c => c = ' ' || c = '\t' || c = '.')
  let digit := Recognizers.digit u.toUnicode
  let continued := concat [word u "cont", opt (alt (word u "d") (word u "inued")),
    star (lit '.'), dotted, opt (concat [word u "p", opt (alt (word u "age") (lit '.')), dotted]),
    rep digit 0 3, star tabOrBlank, opt (lit '/'), opt (lit '-')]
  let between := concat [dash, star tabOrBlank, rep digit 1 3, star tabOrBlank, dash]
  let page := concat [word u "page", plus tabOrBlank, rep digit 1 4,
    opt (concat [plus tabOrBlank, word u "of", plus tabOrBlank, rep digit 1 4])]
  concat [lineStart, star tabOrBlank, alt continued (alt between page), star tabOrBlank,
    alt (lit '\n') textEnd]

def lineBreakHyphen : Regex Char :=
  concat [cls u.isWord, lit '-', lit '\n', cls fun c => 'a' ≤ c && c ≤ 'z']

def trailingSpace : Regex Char := seq (plus tabOrBlank) lineEnd

def repeatedSpace : Regex Char := seq tabOrBlank (plus tabOrBlank)

def excessBlankLines : Regex Char := concat [lit '\n', lit '\n', plus (lit '\n')]

/-- `pattern.sub`, with the replacement of what was matched. -/
def sub (pattern : Regex Char) (replace : Text → Text) (text : Text) : Text :=
  Splice.splice text 0
    ((pattern.finditer text).map fun m => ⟨m.1, m.2, replace (slice text m.1 m.2)⟩)

def clean (text : Text) : Text :=
  if text = [] then [] else
  let text := u.nfkc text
  let text := text.filter (fun c => !invisible.contains c)
  let text := text.map lineBreakControl
  let text := text.filter (fun c => !isControl c)
  let text := newlines text
  let text := sub (pageFurniture u) (fun _ => []) text
  let text := sub (lineBreakHyphen u) (fun m => m.take 1 ++ m.drop 3) text
  let text := sub repeatedSpace (fun _ => [' ']) text
  let text := sub trailingSpace (fun _ => []) text
  let text := sub excessBlankLines (fun _ => ['\n', '\n']) text
  trim u text

end TextCleaner

structure NormalizedUnit where
  index : Int
  label : Text
  text : Text
  textIsTable : Bool := false

inductive QualityFailure where
  | emptyText
  | lowTextDensity
  deriving DecidableEq

structure QualityDetails where
  charCount : Nat
  unitCount : Nat
  charsPerPage : Option ℚ := none

structure QualityCheckResult where
  passed : Bool
  failures : List QualityFailure
  details : QualityDetails

structure NormalizationResult where
  documentId : Nat
  mimeType : String
  language : Option Text
  units : List NormalizedUnit
  headings : List Heading
  tables : List ExtractedTable
  figures : List ExtractedFigure
  quality : QualityCheckResult

namespace QualityChecker

open Binary64

/-- `round(q, 1)`. -/
def tenths (q : ℚ) : ℚ := float (nearest (q * 10) / 10)

def check (minPdfCharsPerPage : Int) (units : List NormalizedUnit) (mimeType : String) :
    QualityCheckResult :=
  let charCount := (units.map (·.text.length)).sum
  let unitCount := units.length
  if charCount = 0 then
    { passed := false, failures := [.emptyText], details := { charCount, unitCount } }
  else if mimeType = pdfMime ∧ 0 < unitCount then
    let charsPerPage := float (charCount / unitCount)
    let failures := if charsPerPage < minPdfCharsPerPage then [.lowTextDensity] else []
    { passed := failures.isEmpty, failures,
      details := { charCount, unitCount, charsPerPage := some (tenths charsPerPage) } }
  else { passed := true, failures := [], details := { charCount, unitCount } }

end QualityChecker

/-- What the service is built from; `langdetect` is `none` where the library raises. -/
structure NormalizationService where
  tables : Tables
  minPdfCharsPerPage : Int
  langdetect : Text → Option Text

namespace NormalizationService

variable (s : NormalizationService)

def clean (text : Text) : Text := TextCleaner.clean s.tables text

def detect (text : Text) : Option Text :=
  let sample := trim s.tables text
  if sample.length < 40 then none else s.langdetect sample

/-- The cleaned text, `none` where there is none. -/
def cleanOption (text : Option Text) : Option Text :=
  (truthy text).bind fun t => truthy (some (s.clean t))

def cleanFigure (figure : ExtractedFigure) : Option ExtractedFigure :=
  let text := s.clean figure.text
  let caption := s.cleanOption figure.caption
  if text = [] ∧ caption = none then none
  else some { figure with text, caption, heading := s.cleanOption figure.heading }

def cleanUnit (unit : ExtractedUnit) : NormalizedUnit :=
  { index := unit.index, label := unit.label, text := s.clean unit.text,
    textIsTable := unit.textIsTable }

def cleanTable (table : ExtractedTable) : ExtractedTable :=
  if (truthy table.heading).isSome then { table with heading := s.cleanOption table.heading }
  else table

def normalize (extraction : ExtractionResult) : NormalizationResult :=
  let units := extraction.units.map s.cleanUnit
  let headings := (extraction.headings.map fun h => { h with text := s.clean h.text }).filter
    (·.text ≠ [])
  { documentId := extraction.documentId
    mimeType := extraction.mimeType
    language := s.detect (join "\n\n" ((units.map (·.text)).filter (· ≠ [])))
    units
    headings
    tables := extraction.tables.map s.cleanTable
    figures := extraction.figures.filterMap s.cleanFigure
    quality := QualityChecker.check s.minPdfCharsPerPage units extraction.mimeType }

end NormalizationService

end KnowledgeBase.Artifact
