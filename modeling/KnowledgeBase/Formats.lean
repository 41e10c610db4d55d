import KnowledgeBase.DriveSync
import KnowledgeBase.Recognizers
import KnowledgeBase.ScanJobHandler
import KnowledgeBase.Unpacking

/-! What is taken for a document and what of it is accepted: the formats, told from the bytes,
and the ladder of checks that a file goes through before it is promoted. -/

namespace KnowledgeBase

/-- An entry of the central directory of an archive. -/
structure ZipInfo where
  filename : Text
  fileSize : Nat
  deriving DecidableEq

/-- What comes of opening a PDF and counting its pages. -/
inductive PdfReading where
  | raises (message : String)
  | encrypted
  | pages (count : Nat)

/-- The libraries that open files, what they need of Unicode, and the setting. -/
structure FormatTools where
  archive : Bytes → Option (List ZipInfo)
  readPdf : Bytes → PdfReading
  sha256 : Bytes → Sha256
  casefold : Text → Text
  lower : String → Text
  repr : Text → String
  maxPdfPages : Nat

def asciiBytes (s : String) : Bytes := s.toList.map fun c => UInt8.ofNat c.toNat

/-- `needle in data`. -/
def occurs (needle data : Bytes) : Bool := decide (needle <:+: data)

/-- `f"{n / (1024 * 1024):.0f}"`. -/
def megabytes (n : Nat) : String := toString (roundHalfEven n (1024 * 1024))

/-- `f"{n / (1024 * 1024):.2f}"`. -/
def megabytes2 (n : Nat) : String :=
  let h := roundHalfEven (n * 100) (1024 * 1024)
  s!"{h / 100}." ++ (if h % 100 < 10 then "0" else "") ++ toString (h % 100)

namespace Formats

def pdfMime : String := "application/pdf"

def docxMime : String :=
  "application/vnd.openxmlformats-officedocument.wordprocessingml.document"

def xlsxMime : String := "application/vnd.openxmlformats-officedocument.spreadsheetml.sheet"

def pptxMime : String :=
  "application/vnd.openxmlformats-officedocument.presentationml.presentation"

def pdfMagic : Bytes := asciiBytes "%PDF-"

def pdfTrailer : Bytes := asciiBytes "%%EOF"

def zipMagic : Bytes := [0x50, 0x4B, 0x03, 0x04]

def oleMagic : Bytes := [0xD0, 0xCF, 0x11, 0xE0, 0xA1, 0xB1, 0x1A, 0xE1]

def contentTypesPart : String := "[Content_Types].xml"

def maxOoxmlEntries : Nat := 10000

def maxOoxmlUncompressedBytes : Nat := 500 * 1024 * 1024

structure StructuralResult where
  ok : Bool
  rejectionReason : Option String
  unitCount : Option Nat

def StructuralResult.passed (unitCount : Option Nat) : StructuralResult :=
  { ok := true, rejectionReason := none, unitCount }

def StructuralResult.refused (reason : String) : StructuralResult :=
  { ok := false, rejectionReason := some reason, unitCount := none }

/-- The two families of containers, each with its two checks. -/
inductive Family where
  | pdf | ooxml
  deriving DecidableEq

structure FormatSpec where
  mimeType : String
  extension : String
  label : String
  zipMarker : Option String
  unitPrefix : Option String
  family : Family
  deriving DecidableEq

def pdfSpec : FormatSpec where
  mimeType := pdfMime
  extension := ".pdf"
  label := "PDF"
  zipMarker := none
  unitPrefix := none
  family := .pdf

def docxSpec : FormatSpec where
  mimeType := docxMime
  extension := ".docx"
  label := "Word document (.docx)"
  zipMarker := some "word/document.xml"
  unitPrefix := none
  family := .ooxml

def xlsxSpec : FormatSpec where
  mimeType := xlsxMime
  extension := ".xlsx"
  label := "Excel workbook (.xlsx)"
  zipMarker := some "xl/workbook.xml"
  unitPrefix := some "xl/worksheets/sheet"
  family := .ooxml

def pptxSpec : FormatSpec where
  mimeType := pptxMime
  extension := ".pptx"
  label := "PowerPoint deck (.pptx)"
  zipMarker := some "ppt/presentation.xml"
  unitPrefix := some "ppt/slides/slide"
  family := .ooxml

def formats : List FormatSpec := [pdfSpec, docxSpec, xlsxSpec, pptxSpec]

def ooxmlSpecs : List FormatSpec := formats.filter fun spec => spec.zipMarker ≠ none

def supportedLabels : String := ", ".intercalate (formats.map FormatSpec.label)

def ooxmlExtensions : String := ", ".intercalate (ooxmlSpecs.map FormatSpec.extension)

def specFor (mimeType : String) : Option FormatSpec := formats.find? fun s => s.mimeType = mimeType

variable (T : FormatTools)

def pdfContainer (data : Bytes) : StructuralResult :=
  if ¬ pdfMagic <+: data then
    .refused "CORRUPTED_PDF_STRUCTURE: Missing '%PDF-' header marker."
  else if !occurs pdfTrailer
      (if data.length ≥ 1024 then data.drop (data.length - 1024) else data) then
    .refused "CORRUPTED_PDF_STRUCTURE: Missing '%%EOF' end-of-file trailer marker."
  else .passed none

def encryptedPdf : String :=
  "ENCRYPTED_PDF: Password-protected or encrypted PDFs are not supported."

def pdfStructure (data : Bytes) : StructuralResult :=
  match T.readPdf data with
  | .encrypted => .refused encryptedPdf
  | .raises message =>
    if "encrypt".toList <:+: T.lower message ∨ "password".toList <:+: T.lower message then
      .refused encryptedPdf
    else .refused s!"CORRUPTED_PDF_STRUCTURE: Malformed internal PDF structure ({message})."
  | .pages count =>
    if count > T.maxPdfPages then
      .refused s!"PAGE_LIMIT_EXCEEDED: PDF has {count} pages (Max: {T.maxPdfPages})."
    else .passed (some count)

def slashed (c : Char) : Char := if c = '\\' then '/' else c

/-- `name.replace("\\", "/")`. -/
def normalised (name : Text) : Text := name.map slashed

/-- Entries that would escape the directory a later stage unpacks them in. -/
def isUnsafeEntry (name : Text) : Bool :=
  ['/'].isPrefixOf (normalised name) || ((normalised name).splitOn '/').contains ['.', '.'] ||
    (1 < (normalised name).length && (normalised name)[1]? = some ':')

def hasPart (names : List Text) : Option String → Bool
  | none => false
  | some part => names.any fun name => T.casefold name = T.casefold part.toList

/-- `name.rsplit("/", 1)[-1]`. -/
def lastPart (name : Text) : Text := (name.reverse.takeWhile (· ≠ '/')).reverse

def hasEntryNamed (names : List Text) (basename : String) : Bool :=
  names.any fun name => T.casefold (lastPart name) = T.casefold basename.toList

def unreadableArchive : String :=
  "CORRUPTED_OOXML_STRUCTURE: Not a readable Office file (unreadable archive)."

def ooxmlContainer (data : Bytes) : StructuralResult :=
  if oleMagic <+: data then
    .refused ("ENCRYPTED_OOXML: This is a password-protected or legacy Office file. Remove the " ++
      "password or re-save it as .docx/.xlsx/.pptx and upload again.")
  else
    match T.archive data with
    | none => .refused unreadableArchive
    | some infolist =>
      if !hasPart T (infolist.map ZipInfo.filename) (some contentTypesPart) then
        .refused (s!"CORRUPTED_OOXML_STRUCTURE: Missing '{contentTypesPart}'" ++
          " — not a valid Office file.")
      else .passed none

/-- The format whose part is in the archive, in the order of the table. -/
def actualFormat (names : List Text) : Option FormatSpec :=
  ooxmlSpecs.find? fun other => hasPart T names other.zipMarker

def mismatch (spec : FormatSpec) (names : List Text) : String :=
  let detail :=
    match (actualFormat T names).map FormatSpec.label with
    | some actual => s!"file is actually {actual}"
    | none => "content does not match any known type"
  let marker := spec.zipMarker.getD "None"
  s!"CORRUPTED_OOXML_STRUCTURE: Expected {spec.label} (missing '{marker}') — {detail}."

def ooxmlStructure (data : Bytes) (spec : FormatSpec) : StructuralResult :=
  match T.archive data with
  | none => .refused unreadableArchive
  | some infolist =>
    let names := infolist.map ZipInfo.filename
    let total := (infolist.map ZipInfo.fileSize).sum
    if infolist.length > maxOoxmlEntries then
      .refused (s!"TOO_MANY_ARCHIVE_ENTRIES: Office file contains {infolist.length} archive " ++
        s!"entries (Max: {maxOoxmlEntries}).")
    else if total > maxOoxmlUncompressedBytes then
      .refused (s!"ARCHIVE_TOO_LARGE: Office file declares {megabytes total}MB of uncompressed " ++
        s!"content (Max: {maxOoxmlUncompressedBytes / (1024 * 1024)}MB).")
    else if hasEntryNamed T names "vbaProject.bin" then
      .refused ("MACRO_ENABLED_DOCUMENT: This file contains macros. Re-save it without macros " ++
        "(.docx/.xlsx/.pptx) and upload again.")
    else
      match names.find? isUnsafeEntry with
      | some entry =>
        .refused (s!"UNSAFE_ARCHIVE_ENTRY: Office file contains an illegal entry path " ++
          s!"({T.repr entry}).")
      | none =>
        if !hasPart T names spec.zipMarker then .refused (mismatch T spec names)
        else .passed (spec.unitPrefix.map fun p =>
          (names.filter fun name => p.toList.isPrefixOf name).length)

def containerCheck (data : Bytes) (spec : FormatSpec) : StructuralResult :=
  match spec.family with
  | .pdf => pdfContainer data
  | .ooxml => ooxmlContainer T data

def structuralCheck (data : Bytes) (spec : FormatSpec) : StructuralResult :=
  match spec.family with
  | .pdf => pdfStructure T data
  | .ooxml => ooxmlStructure T data spec

/-- The format of a file, whatever the client says of it. -/
def detectFormat (data : Bytes) : Option FormatSpec :=
  if pdfMagic <+: data then some pdfSpec
  else if zipMagic <+: data then
    match T.archive data with
    | none => none
    | some infolist => actualFormat T (infolist.map ZipInfo.filename)
  else none

def describeUnsupported (data : Bytes) (declaredMime : Option String) : String :=
  if oleMagic <+: data then
    "This is a password-protected or legacy Office file (.doc/.xls/.ppt). Re-save it as " ++
      s!"{ooxmlExtensions} and upload again."
  else
    let declared :=
      match declaredMime with
      | some mime => if mime = "" then "" else s!" (declared '{mime}')"
      | none => ""
    s!"Unsupported file type{declared}. Accepted formats: {supportedLabels}."

end Formats

structure ScanResult where
  passed : Bool
  threatsDetected : List String

namespace ClamAVScanner

def maliciousSignatures : List String :=
  ["/Launch", "/JavaScript", "powershell.exe", "cmd.exe", "EICAR-STANDARD-ANTIVIRUS-TEST-FILE!"]

def scan (data : Bytes) : ScanResult :=
  let detected := maliciousSignatures.filter fun s => occurs (asciiBytes s) data
  { passed := detected.isEmpty, threatsDetected := detected }

/-- How a list of signatures is written out. -/
def written (threats : List String) : String :=
  "[" ++ ", ".intercalate (threats.map fun s => s!"'{s}'") ++ "]"

end ClamAVScanner

/-- `ValidationResult`, with the fields that the scan stage does not read. -/
structure FileValidation extends ValidationResult where
  fileSizeBytes : Nat
  mimeType : String
  scanResult : Option ScanResult

namespace FileValidator

open Formats

def maxFileSizeBytes : Nat := 100 * 1024 * 1024

def refused (data : Bytes) (mimeType : String) (scan : Option ScanResult)
    (reason : Option String) : FileValidation :=
  { isValid := false, sha256 := "", pageCount := none, rejectionReason := reason,
    fileSizeBytes := data.length, mimeType, scanResult := scan }

def validate (T : FormatTools) (data : Bytes) (declaredMimeType : String) : FileValidation :=
  if data.length = 0 then
    refused data declaredMimeType none (some "EMPTY_FILE: Document contains 0 bytes.")
  else if data.length > maxFileSizeBytes then
    refused data declaredMimeType none (some
      s!"FILE_TOO_LARGE: Exceeds 100MB limit (Actual: {megabytes2 data.length} MB).")
  else
    match specFor declaredMimeType with
    | none => refused data declaredMimeType none (some
        s!"INVALID_MIME_TYPE: {describeUnsupported data (some declaredMimeType)}")
    | some spec =>
      let container := containerCheck T data spec
      if !container.ok then refused data declaredMimeType none container.rejectionReason
      else
        let scan := ClamAVScanner.scan data
        if !scan.passed then
          refused data declaredMimeType (some scan) (some
            ("MALICIOUS_THREAT_DETECTED: Scanner found " ++
              ClamAVScanner.written scan.threatsDetected))
        else
          let structural := structuralCheck T data spec
          if !structural.ok then
            refused data declaredMimeType (some scan) structural.rejectionReason
          else
            { isValid := true, sha256 := T.sha256 data, pageCount := structural.unitCount,
              rejectionReason := none, fileSizeBytes := data.length, mimeType := spec.mimeType,
              scanResult := some scan }

end FileValidator

end KnowledgeBase
