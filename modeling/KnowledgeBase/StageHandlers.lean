import KnowledgeBase.ScanJobHandler

/-! The stages after the scan: extraction, normalization, chunking and embedding. Each
runs on one status, writes what it made, sets the next status and queues the next
job. -/

namespace KnowledgeBase

open Program

/-- What a stage reports to its worker, who tells a retry from a failure by it. -/
structure StageOutcome where
  documentId : DocumentId
  status : DocumentStatus
  message : String
  key : Option ObjectKey
  count : Nat
  failureReason : Option String
  transient : Bool

namespace StageOutcome

def missing (id : DocumentId) (status : DocumentStatus) : StageOutcome :=
  { documentId := id, status, message := "Document record not found.", key := none, count := 0,
    failureReason := some "DOCUMENT_NOT_FOUND: Document ID not registered in database.",
    transient := false }

def skipped (doc : Document) (message : String) (key : Option ObjectKey) : StageOutcome :=
  { documentId := doc.id, status := doc.status, message, key, count := 0, failureReason := none,
    transient := false }

def retry (doc : Document) (message reason : String) : StageOutcome :=
  { documentId := doc.id, status := doc.status, message, key := none, count := 0,
    failureReason := some reason, transient := true }

def done (doc : Document) (status : DocumentStatus) (message : String)
    (key : Option ObjectKey) (count : Nat) : StageOutcome :=
  { documentId := doc.id, status, message, key, count, failureReason := none,
    transient := false }

def failed (doc : Document) (status : DocumentStatus) (message reason : String) : StageOutcome :=
  { documentId := doc.id, status, message, key := none, count := 0,
    failureReason := some reason, transient := false }

/-- `process_job` of the four workers. -/
def jobOutcome (o : StageOutcome) : JobOutcome :=
  match o.failureReason with
  | none => .completed
  | some reason => if o.transient then .transient reason else .permanent reason

end StageOutcome

/-- `_fail` of the four handlers: the row is marked and nothing more is queued. -/
def markFailed (doc : Document) (status : DocumentStatus) (event : AuditEventType)
    (message reason : String) : Stage StageOutcome := do
  send (.updateDocument { doc with status, rejectionReason := some reason })
  send (.audit doc.id event false)
  return .failed doc status message reason

def artifactKeyFor (id : DocumentId) : ObjectKey := .ofDocument id ".json"

namespace ExtractionJobHandler

def fail (doc : Document) (reason : String) : Stage StageOutcome :=
  markFailed doc .extractionFailed .extractionFailed s!"Extraction failed: {reason}" reason

def store (doc : Document) (result : ExtractionResult) : Stage StageOutcome := do
  let written ← attempt (send (.putExtraction (artifactKeyFor doc.id) result))
  match written with
  | .error e =>
    return .retry doc "Storage error writing the extraction result."
      s!"STORAGE_ERROR: Failed to write extraction artifact ({e.message})."
  | .ok _ => do
    send (.updateDocument { doc with
      status := .extracted, extractionMethod := some result.extractionMethod })
    send (.audit doc.id .extractionCompleted false)
    send (.enqueue doc.id .normalize)
    return .done doc .extracted "Document text extracted and queued for normalization."
      (some (artifactKeyFor doc.id)) 0

/-- Of what the extractor may raise only its own error is caught. -/
def extract (sv : Services) (doc : Document) (data : Bytes) : Stage StageOutcome :=
  match sv.extract doc.id data doc.mimeType with
  | .error (.extractionError m) => fail doc s!"EXTRACTION_FAILED: {m}"
  | .error e => raise e
  | .ok result => store doc result

def process (sv : Services) (id : DocumentId) : Stage StageOutcome := do
  let loaded ← send (.getById id)
  match loaded with
  | none => return .missing id .extractionFailed
  | some doc =>
    if doc.status ≠ .validated then
      return .skipped doc s!"Document is {doc.status.value}; extraction not applicable."
        (some (artifactKeyFor id))
    else
      match doc.rawPath with
      | none =>
        fail doc "MISSING_RAW_OBJECT: Document is VALIDATED but has no raw_path to read."
      | some rawKey => do
        let read ← attempt (send (.getObject .raw rawKey))
        match read with
        | .error e =>
          return .retry doc "Could not read the promoted file from raw storage."
            s!"STORAGE_ERROR: Failed to read raw object ({e.message})."
        | .ok data => extract sv doc data

end ExtractionJobHandler

namespace NormalizationJobHandler

def fail (doc : Document) (failures : List String) : Stage StageOutcome :=
  let reason := "QUALITY_CHECK_FAILED: " ++ ", ".intercalate failures
  markFailed doc .normalizationFailed .normalizationFailed
    s!"Normalization rejected the document: {reason}" reason

def store (doc : Document) (result : NormalizationResult) : Stage StageOutcome := do
  let written ← attempt (send (.putNormalization (artifactKeyFor doc.id) result))
  match written with
  | .error e =>
    return .retry doc "Storage error writing the normalized result."
      s!"STORAGE_ERROR: Failed to write normalized artifact ({e.message})."
  | .ok _ => do
    send (.updateDocument { doc with status := .awaitingClassification })
    send (.audit doc.id .normalizationCompleted false)
    send (.enqueue doc.id .chunk)
    return .done doc .awaitingClassification "Document normalized and awaiting classification."
      (some (artifactKeyFor doc.id)) 0

def process (sv : Services) (id : DocumentId) : Stage StageOutcome := do
  let loaded ← send (.getById id)
  match loaded with
  | none => return .missing id .normalizationFailed
  | some doc =>
    if doc.status ≠ .extracted then
      return .skipped doc s!"Document is {doc.status.value}; normalization not applicable."
        (some (artifactKeyFor id))
    else do
      let read ← attempt (send (.getExtraction (artifactKeyFor id)))
      match read with
      | .error e =>
        return .retry doc "Could not read the extraction artifact."
          s!"STORAGE_ERROR: Failed to read extraction artifact ({e.message})."
      | .ok extraction =>
        let result := sv.normalize extraction
        if result.quality.passed then store doc result
        else fail doc result.quality.failures

end NormalizationJobHandler

namespace ChunkingJobHandler

def fail (doc : Document) (reason : String) : Stage StageOutcome :=
  markFailed doc .chunkingFailed .chunkingFailed s!"Chunking rejected the document: {reason}"
    reason

def strip (sv : Services) (s : String) : String :=
  String.ofList ((s.toList.dropWhile sv.isSpace).reverse.dropWhile sv.isSpace).reverse

/-- `filename.rsplit("/", 1)[-1]`. -/
def baseName (filename : String) : String :=
  String.ofList (filename.toList.reverse.takeWhile (· ≠ '/')).reverse

def documentTitle (sv : Services) (doc : Document) : String :=
  let title := strip sv (doc.title.getD "")
  if title = "" then baseName doc.filename else title

def store (sv : Services) (doc : Document) (passages : List Passage) : Stage StageOutcome := do
  let persisted ← attempt (send (.persistChunks doc.id passages (documentTitle sv doc)))
  match persisted with
  | .error e =>
    return .retry doc "Database error writing chunks."
      s!"STORAGE_ERROR: Failed to persist chunks ({e.message})."
  | .ok _ => do
    send (.updateDocument { doc with status := .chunked })
    send (.enqueue doc.id .embed)
    send (.audit doc.id .chunkingCompleted false)
    return .done doc .chunked s!"Document split into {passages.length} passages." none
      passages.length

def process (sv : Services) (id : DocumentId) : Stage StageOutcome := do
  let loaded ← send (.getById id)
  match loaded with
  | none => return .missing id .chunkingFailed
  | some doc =>
    if doc.status ≠ .awaitingClassification then
      return .skipped doc s!"Document is {doc.status.value}; chunking not applicable." none
    else do
      let read ← attempt (send (.getNormalization (artifactKeyFor id)))
      match read with
      | .error e =>
        return .retry doc "Could not read the normalized artifact."
          s!"STORAGE_ERROR: Failed to read normalized artifact ({e.message})."
      | .ok normalized =>
        let passages := sv.chunk normalized
        if passages.isEmpty then
          fail doc "NO_CHUNKS_PRODUCED: Normalized document yielded no passages."
        else store sv doc passages

end ChunkingJobHandler

namespace EmbeddingJobHandler

def supportedLanguages : List String := ["en"]

def wordLike (sv : Services) (token : List Char) : Bool :=
  3 ≤ token.length && !token.any sv.isDigit

/-- The share of the characters that sit in word-like tokens. -/
def proseRatio (sv : Services) (text : String) : Rat :=
  if text = "" then 0
  else
    let tokens := text.toList.splitOnP sv.isSpace
    (((tokens.filter (wordLike sv)).map List.length).sum : Rat) / text.length

/-- A grid has no sentences to detect a language in, so the default is assumed. -/
def detectedLanguage (sv : Services) (id : DocumentId) : Stage (Option String) := do
  let read ← attempt (send (.getNormalization (artifactKeyFor id)))
  match read with
  | .error _ => return none
  | .ok result =>
    if proseRatio sv result.fullText < sv.embeddingMinProseRatio then return some "en"
    else return result.language

def fail (doc : Document) (reason : String) : Stage StageOutcome :=
  markFailed doc .embeddingFailed .embeddingFailed s!"Embedding rejected the document: {reason}"
    reason

def skipUnsupportedLanguage (doc : Document) (language : Option String) :
    Stage StageOutcome := do
  send (.updateDocument { doc with status := .skippedUnsupportedLanguage })
  send (.audit doc.id .embeddingSkipped false)
  return .done doc .skippedUnsupportedLanguage
    s!"Language '{str language}' is not covered by the configured embedding model."
    none 0

def store (doc : Document) (chunks : List Chunk) (result : EmbeddingResult) :
    Stage StageOutcome := do
  let written ← attempt
    (send (.writeEmbeddings ((chunks.map Chunk.chunkId).zip result.vectors)))
  match written with
  | .error e =>
    return .retry doc "Database error writing embeddings."
      s!"STORAGE_ERROR: Failed to persist embeddings ({e.message})."
  | .ok _ => do
    send (.updateDocument { doc with status := .live })
    send (.audit doc.id .embeddingCompleted false)
    return .done doc .live
      s!"Document embedded into {result.vectors.length} vectors and is searchable." none
      result.vectors.length

def embed (doc : Document) (chunks : List Chunk) : Stage StageOutcome := do
  let embedded ← attempt
    (send (.embedDocument doc.id (chunks.map (fun c => c.passage.text))))
  match embedded with
  | .error (.valueError m) => fail doc s!"EMBEDDING_CONFIG_ERROR: {m}"
  | .error e =>
    return .retry doc "Embedding inference failed." s!"EMBEDDING_ERROR: {e.message}"
  | .ok result =>
    if result.vectors.length ≠ chunks.length then
      fail doc
        s!"VECTOR_COUNT_MISMATCH: {result.vectors.length} vectors for {chunks.length} chunks."
    else store doc chunks result

def process (sv : Services) (id : DocumentId) : Stage StageOutcome := do
  let loaded ← send (.getById id)
  match loaded with
  | none => return .missing id .embeddingFailed
  | some doc =>
    if doc.status ≠ .chunked then
      return .skipped doc s!"Document is {doc.status.value}; embedding not applicable." none
    else do
      let language ← detectedLanguage sv id
      if sv.embeddingSkipNonEnglish ∧ ¬ language.any supportedLanguages.contains then
        skipUnsupportedLanguage doc language
      else do
        let chunks ← send (.loadChunks id)
        if chunks.isEmpty then
          fail doc "NO_CHUNKS_FOUND: Document is CHUNKED but has no passages to embed."
        else embed doc chunks

end EmbeddingJobHandler

/-- `process_job` of the worker of each stage. -/
def processJob (sv : Services) : JobStage → DocumentId → Stage JobOutcome
  | .scan, id => ScanWorker.processJob sv id
  | .extract, id => return (← ExtractionJobHandler.process sv id).jobOutcome
  | .normalize, id => return (← NormalizationJobHandler.process sv id).jobOutcome
  | .chunk, id => return (← ChunkingJobHandler.process sv id).jobOutcome
  | .embed, id => return (← EmbeddingJobHandler.process sv id).jobOutcome

/-- Services that accept every file and make one passage of it. -/
def plainServices : Services where
  validateDocument _ _ := { isValid := true, sha256 := "e3b0", pageCount := some 1,
                            rejectionReason := none }
  extract id _ mimeType := .ok { documentId := id, mimeType, units := ["page"],
                                 extractionMethod := "NATIVE" }
  normalize e := { documentId := e.documentId, mimeType := e.mimeType, language := some "en",
                   units := e.units, quality := { passed := true, failures := [] } }
  chunk _ := [{ index := 0, text := "page", pageNumber := some 1, sectionHeading := none,
                isTable := false, scale := "section" }]
  embedDocument _ texts := .ok { modelName := "plain", dimensions := 1,
                                 vectors := texts.map (fun _ => [1]) }
  isSpace c := c = ' '
  isDigit c := '0' ≤ c && c ≤ '9'
  embeddingSkipNonEnglish := false
  embeddingMinProseRatio := 0

def plainRequest : UploadRequest where
  classification := .public
  supersedesDocId := none
  keepPreviousVersion := true
  ownerId := none
  title := none
  description := none
  documentDate := none
  uploadBatchId := none

/-- A row as it is after an upload of one byte, with some of it changed. -/
def uploadedRow (id : DocumentId) (f : Document → Document) : Document :=
  f (UploadService.received id "memo.pdf" [37] plainRequest "application/pdf")

end KnowledgeBase
