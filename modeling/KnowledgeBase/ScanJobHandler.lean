import KnowledgeBase.Pipeline

/-! The upload and the scan stage: a file lands in quarantine, is validated, matched
against what is already there by its hash, and promoted to the raw bucket. -/

namespace KnowledgeBase

open Program

structure UploadRequest where
  classification : Classification
  supersedesDocId : Option DocumentId
  keepPreviousVersion : Bool
  ownerId : Option UserId
  title : Option String
  description : Option String
  documentDate : Option Nat
  uploadBatchId : Option Nat

structure UploadResponse where
  documentId : DocumentId
  filename : String
  status : DocumentStatus
  quarantineKey : ObjectKey
  checksum : Option Sha256
  rejectionReason : Option String
  wasDuplicate : Bool
  canonicalTierEscalated : Bool
  message : String

def extensionFor (mimeType : String) : String :=
  if mimeType = "application/vnd.openxmlformats-officedocument.wordprocessingml.document" then
    ".docx"
  else if mimeType = "application/vnd.openxmlformats-officedocument.spreadsheetml.sheet" then
    ".xlsx"
  else if mimeType =
      "application/vnd.openxmlformats-officedocument.presentationml.presentation" then
    ".pptx"
  else ".pdf"

def buildQuarantineKey (id : DocumentId) (mimeType : String) : ObjectKey :=
  .ofDocument id (extensionFor mimeType)

/-- The path recorded at upload, and the key derived again once it is cleared. -/
def quarantineKeyFor (doc : Document) : ObjectKey :=
  doc.quarantinePath.getD (buildQuarantineKey doc.id doc.mimeType)

def buildRawKey (sha256 : Sha256) (mimeType : String) : ObjectKey :=
  .ofContent sha256 (extensionFor mimeType)

/-- `str(value)` of what may be missing. -/
def str (value : Option String) : String := value.getD "None"

namespace UploadService

/-- The row an upload registers. -/
def received (id : DocumentId) (filename : String) (data : Bytes) (request : UploadRequest)
    (mimeType : String) : Document :=
  { id, filename, ownerId := request.ownerId, title := request.title,
    description := request.description, mimeType, pageCount := none, extractionMethod := none,
    uploadBatchId := request.uploadBatchId, size := data.length, checksum := none,
    status := .quarantined, classification := some request.classification,
    documentDate := request.documentDate, version := 1, supersedesId := none,
    quarantinePath := some (buildQuarantineKey id mimeType), rawPath := none,
    rejectionReason := none, deletedAt := none, purgedAt := none }

def receive (id : DocumentId) (filename : String) (data : Bytes) (request : UploadRequest)
    (mimeType : String) : Stage UploadResponse := do
  send (.putObject .quarantine (buildQuarantineKey id mimeType) data)
  send (.create (received id filename data request mimeType))
  send (.enqueue id .scan)
  send (.audit id .documentQuarantined true)
  return { documentId := id, filename, status := .quarantined,
           quarantineKey := buildQuarantineKey id mimeType, checksum := none,
           rejectionReason := none, wasDuplicate := false, canonicalTierEscalated := false,
           message := "Document accepted for asynchronous scanning and processing." }

end UploadService

namespace ScanJobHandler

/-- Past this stage already. -/
def promotedStatuses : List DocumentStatus :=
  [.validated, .extracted, .extractionFailed, .normalizationFailed, .awaitingClassification,
    .live]

def finalizedStatuses : List DocumentStatus := [.rejected, .duplicate]

/-- Raises the tier of the document that stays; the copy is dropped either way. -/
def escalateTierIfStricter (canonical : Document) (incoming : Option Classification) :
    Stage (Bool × Document) :=
  match incoming with
  | none => return (false, canonical)
  | some newTier =>
    if isStricter incoming canonical.classification then do
      send (.setClassification canonical.id newTier)
      send (.audit canonical.id .documentReclassified true)
      return (true, { canonical with classification := some newTier })
    else return (false, canonical)

def notFoundResponse (id : DocumentId) : UploadResponse :=
  { documentId := id, filename := "unknown", status := .validationFailed,
    quarantineKey := buildQuarantineKey id "application/pdf", checksum := none,
    rejectionReason := some "DOCUMENT_NOT_FOUND: Document ID not registered in database.",
    wasDuplicate := false, canonicalTierEscalated := false,
    message := "Document record not found." }

/-- A document this stage has dealt with is answered as it is. -/
def settledResponse (doc : Document) : UploadResponse :=
  { documentId := doc.id, filename := doc.filename, status := doc.status,
    quarantineKey := quarantineKeyFor doc, checksum := doc.checksum,
    rejectionReason := if doc.status ∈ finalizedStatuses then doc.rejectionReason else none,
    wasDuplicate := doc.status = .duplicate, canonicalTierEscalated := false,
    message :=
      if doc.status ∈ finalizedStatuses then
        s!"Document already finalized: {str doc.rejectionReason}"
      else "Document already processed and promoted." }

def failedResponse (doc : Document) (checksum : Option Sha256) (reason message : String) :
    UploadResponse :=
  { documentId := doc.id, filename := doc.filename, status := .validationFailed,
    quarantineKey := quarantineKeyFor doc, checksum, rejectionReason := some reason,
    wasDuplicate := false, canonicalTierEscalated := false, message }

def readError : String := "STORAGE_ERROR: Failed to retrieve quarantined file."

def promoteError : String :=
  "STORAGE_ERROR: Failed to promote file from quarantine to raw storage."

def unreadable (doc : Document) : Document :=
  { doc with status := .validationFailed, rejectionReason := some readError }

def unpromoted (doc : Document) : Document :=
  { doc with status := .validationFailed, rejectionReason := some promoteError }

def reject (doc : Document) (v : ValidationResult) : Stage UploadResponse := do
  send (.updateDocument { doc with
    status := .rejected, rejectionReason := v.rejectionReason, quarantinePath := none })
  send (.audit doc.id .documentRejected false)
  let _ ← send (.deleteObject .quarantine (quarantineKeyFor doc))
  return { documentId := doc.id, filename := doc.filename, status := .rejected,
           quarantineKey := quarantineKeyFor doc, checksum := none,
           rejectionReason := v.rejectionReason, wasDuplicate := false,
           canonicalTierEscalated := false,
           message := s!"Upload rejected: {str v.rejectionReason}" }

def duplicateMessage (canonical : Document) (escalated : Bool) : String :=
  s!"Duplicate document detected (matches canonical document ID: {canonical.id})." ++
    if escalated then
      let tier := str (canonical.classification.map Classification.value)
      s!" The canonical document was raised to {tier} because this copy was filed more restricted."
    else ""

/-- The copy is dropped in favour of the document that has its hash. -/
def duplicate (doc : Document) (key : ObjectKey) (sha256 : Sha256) (existing : Document) :
    Stage UploadResponse := do
  let (escalated, canonical) ← escalateTierIfStricter existing doc.classification
  send (.updateDocument { doc with status := .duplicate, quarantinePath := none })
  let _ ← send (.deleteObject .quarantine key)
  send (.audit doc.id .documentRejected false)
  return { documentId := existing.id, filename := doc.filename, status := .duplicate,
           quarantineKey := key, checksum := some sha256, rejectionReason := none,
           wasDuplicate := true, canonicalTierEscalated := escalated,
           message := duplicateMessage canonical escalated }

/-- The document an upload said it replaces, when it said so. -/
def supersede (doc : Document) (request : Option UploadRequest) : Stage Document :=
  match request with
  | none => return doc
  | some r =>
    match r.supersedesDocId with
    | none => return doc
    | some priorId => do
      let prior ← send (.getById priorId)
      match prior with
      | none => return doc
      | some prior => do
        send (.updateDocument { prior with
          status := if r.keepPreviousVersion then .superseded else .archived })
        send (.audit prior.id .documentSuperseded false)
        return { doc with version := prior.version + 1, supersedesId := some prior.id }

/-- The copy and the delete of the promotion, within one `try`. -/
def moveToRaw (key rawKey : ObjectKey) : Stage Unit := do
  let there ← send (.objectExists .raw rawKey)
  if there then
    let _ ← send (.deleteObject .quarantine key)
  else
    send (.copyObject .quarantine key .raw rawKey)
    let _ ← send (.deleteObject .quarantine key)

/-- The lookup by hash may hand back the very document that lost. -/
def escalateWinner (doc : Document) (canonical : Option Document) : Stage Bool :=
  match canonical with
  | none => return false
  | some c =>
    if c.id = doc.id then return false
    else do
      let (escalated, _) ← escalateTierIfStricter c doc.classification
      return escalated

/-- The unique index decided a race for this hash against this document. -/
def lostRace (doc : Document) (key : ObjectKey) (sha256 : Sha256) : Stage UploadResponse := do
  send (.updateDocument { doc with status := .duplicate, rawPath := none })
  let canonical ← send (.getByChecksum sha256)
  let escalated ← escalateWinner doc canonical
  send (.audit doc.id .documentRejected false)
  return { documentId := (canonical.map Document.id).getD doc.id, filename := doc.filename,
           status := .duplicate, quarantineKey := key, checksum := some sha256,
           rejectionReason := none, wasDuplicate := true, canonicalTierEscalated := escalated,
           message := "Duplicate document detected (concurrent upload of identical content)." }

def promoted (doc : Document) (v : ValidationResult) : Document :=
  { doc with
    status := .validated, rawPath := some (buildRawKey v.sha256 doc.mimeType),
    quarantinePath := none, pageCount := v.pageCount }

/-- The promotion is recorded and the next stage queued. -/
def handOver (doc : Document) (key : ObjectKey) (v : ValidationResult) :
    Stage UploadResponse := do
  send (.audit doc.id .validationPassed false)
  send (.audit doc.id .documentPromoted false)
  send (.enqueue doc.id .extract)
  return { documentId := doc.id, filename := doc.filename, status := .validated,
           quarantineKey := key, checksum := some v.sha256, rejectionReason := none,
           wasDuplicate := false, canonicalTierEscalated := false,
           message := "Document passed all checks and was promoted to raw storage." }

def promote (doc : Document) (key : ObjectKey) (v : ValidationResult) :
    Stage UploadResponse := do
  let moved ← attempt (moveToRaw key (buildRawKey v.sha256 doc.mimeType))
  match moved with
  | .error _ => do
    send (.updateDocument (unpromoted doc))
    return { failedResponse doc (some v.sha256) promoteError
      "Storage error during promotion. File preserved in quarantine for retry." with
      quarantineKey := key }
  | .ok _ => do
    let written ← attempt (send (.updateDocument (promoted doc v)))
    match written with
    | .error .integrityError => lostRace (promoted doc v) key v.sha256
    | .error e => raise e
    | .ok _ => handOver doc key v

/-- The critical section, with the hash in the copy of the row. -/
def dedupAndPromote (doc : Document) (key : ObjectKey) (v : ValidationResult)
    (request : Option UploadRequest) : Stage UploadResponse := do
  let existing ← send (.getByChecksum v.sha256)
  match existing with
  | some e =>
    if e.id ≠ doc.id then duplicate doc key v.sha256 e
    else do
      let doc ← supersede doc request
      promote doc key v
  | none => do
    let doc ← supersede doc request
    promote doc key v

def process (sv : Services) (id : DocumentId) (request : Option UploadRequest) :
    Stage UploadResponse := do
  let loaded ← send (.getById id)
  match loaded with
  | none => return notFoundResponse id
  | some doc =>
    if doc.status ∈ promotedStatuses ∨ doc.status ∈ finalizedStatuses then
      return settledResponse doc
    else do
      let read ← attempt (send (.getObject .quarantine (quarantineKeyFor doc)))
      match read with
      | .error _ => do
        send (.updateDocument (unreadable doc))
        return failedResponse doc none readError "Could not read file from quarantine storage."
      | .ok data =>
        let v := sv.validateDocument data doc.mimeType
        if v.isValid then
          dedupAndPromote { doc with checksum := some v.sha256 } (quarantineKeyFor doc) v request
        else reject doc v

/-! The operations each part of the scan consists of, for any property they all have. -/

section Parts

variable {P : Op → Prop} {doc canonical : Document} {key rawKey : ObjectKey} {sha256 : Sha256}
  {v : ValidationResult}

theorem escalate_sends_of {incoming : Option Classification}
    (htier : ∀ tier, isStricter (some tier) canonical.classification = true →
      P (.setClassification canonical.id tier))
    (haudit : ∀ id event again, P (.audit id event again)) :
    (escalateTierIfStricter canonical incoming).Sends P fun _ _ => True := by
  unfold escalateTierIfStricter
  split
  · trivial
  · split
    · rename_i hs
      refine sends_bind (sends_perform (htier _ hs)) fun _ => ?_
      exact sends_bind (sends_perform (haudit _ _ _)) fun _ => trivial
    · trivial

theorem duplicate_sends_of {existing : Document}
    (htier : ∀ tier, isStricter (some tier) existing.classification = true →
      P (.setClassification existing.id tier))
    (hwrite : P (.updateDocument { doc with status := .duplicate, quarantinePath := none }))
    (hdelete : P (.deleteObject .quarantine key))
    (haudit : ∀ id event again, P (.audit id event again)) :
    (duplicate doc key sha256 existing).Sends P fun _ _ => True := by
  refine sends_bind (escalate_sends_of htier haudit) fun _ => ?_
  refine sends_bind (sends_perform hwrite) fun _ => ?_
  refine sends_bind (sends_perform hdelete) fun _ => ?_
  exact sends_bind (sends_perform (haudit _ _ _)) fun _ => trivial

theorem reject_sends_of
    (hwrite : P (.updateDocument { doc with
      status := .rejected, rejectionReason := v.rejectionReason, quarantinePath := none }))
    (hdelete : P (.deleteObject .quarantine (quarantineKeyFor doc)))
    (haudit : ∀ id event again, P (.audit id event again)) :
    (reject doc v).Sends P fun _ _ => True := by
  refine sends_bind (sends_perform hwrite) fun _ => ?_
  refine sends_bind (sends_perform (haudit _ _ _)) fun _ => ?_
  exact sends_bind (sends_perform hdelete) fun _ => trivial

theorem moveToRaw_sends_of (hexists : P (.objectExists .raw rawKey))
    (hcopy : P (.copyObject .quarantine key .raw rawKey))
    (hdelete : P (.deleteObject .quarantine key)) :
    (moveToRaw key rawKey).Sends P fun _ _ => True := by
  refine sends_bind (sends_perform hexists) fun there => ?_
  cases there
  · refine sends_bind (sends_perform hcopy) fun _ => ?_
    exact sends_bind (sends_perform hdelete) fun _ => trivial
  · exact sends_bind (sends_perform hdelete) fun _ => trivial

theorem lostRace_sends_of
    (hwrite : P (.updateDocument { doc with status := .duplicate, rawPath := none }))
    (hlook : P (.getByChecksum sha256))
    (htier : ∀ c : Document, c.id ≠ doc.id → ∀ tier,
      isStricter (some tier) c.classification = true → P (.setClassification c.id tier))
    (haudit : ∀ id event again, P (.audit id event again)) :
    (lostRace doc key sha256).Sends P fun _ _ => True := by
  refine sends_bind (sends_perform hwrite) fun _ => ?_
  refine sends_bind (sends_perform hlook) fun canonical => ?_
  refine sends_bind ?_ fun _ => sends_bind (sends_perform (haudit _ _ _)) fun _ => trivial
  unfold escalateWinner
  split
  · trivial
  · split
    · trivial
    · rename_i hne
      exact sends_bind (escalate_sends_of (htier _ hne) haudit) fun _ => trivial

theorem handOver_sends_of (haudit : ∀ id event again, P (.audit id event again))
    (henqueue : P (.enqueue doc.id .extract)) :
    (handOver doc key v).Sends P fun _ _ => True := by
  refine sends_bind (sends_perform (haudit _ _ _)) fun _ => ?_
  refine sends_bind (sends_perform (haudit _ _ _)) fun _ => ?_
  exact sends_bind (sends_perform henqueue) fun _ => trivial

/-- The promotion once the file is moved. -/
theorem recorded_sends_of (hwrite : P (.updateDocument (promoted doc v)))
    (hlost : (lostRace (promoted doc v) key v.sha256).Sends P fun _ _ => True)
    (hdone : (handOver doc key v).Sends P fun _ _ => True) :
    (attempt (send (.updateDocument (promoted doc v))) >>= fun written =>
      match written with
      | .error .integrityError => lostRace (promoted doc v) key v.sha256
      | .error e => raise e
      | .ok _ => handOver doc key v).Sends P fun _ _ => True := by
  refine sends_bind (sends_attempt (sends_perform hwrite)) fun written => ?_
  split
  · exact hlost
  · trivial
  · exact hdone

theorem promote_sends_of
    (hmove : (moveToRaw key (buildRawKey v.sha256 doc.mimeType)).Sends P fun _ _ => True)
    (hfailed : P (.updateDocument (unpromoted doc)))
    (hwrite : P (.updateDocument (promoted doc v)))
    (hlost : (lostRace (promoted doc v) key v.sha256).Sends P fun _ _ => True)
    (hdone : (handOver doc key v).Sends P fun _ _ => True) :
    (promote doc key v).Sends P fun _ _ => True := by
  refine sends_bind (sends_attempt hmove) fun moved => ?_
  cases moved with
  | error e => exact sends_bind (sends_perform hfailed) fun _ => trivial
  | ok _ => exact recorded_sends_of hwrite hlost hdone

end Parts

end ScanJobHandler

/-- What a worker makes of the end of `process_job`. -/
inductive JobOutcome where
  | completed
  | transient (message : String)
  | permanent (message : String)
  deriving DecidableEq, Repr

def mentions (reason text : String) : Bool :=
  decide (text.toList <:+: reason.toList)

namespace ScanWorker

def outcome (response : UploadResponse) : JobOutcome :=
  if response.status = .validationFailed then
    match response.rejectionReason with
    | none => .permanent "Validation failed"
    | some reason =>
      if mentions reason "DOCUMENT_NOT_FOUND" then .permanent reason
      else if mentions reason "STORAGE_ERROR" then .transient reason
      else .permanent (if reason = "" then "Validation failed" else reason)
  else .completed

/-- The worker has only the document's id: no upload request reaches this stage. -/
def processJob (sv : Services) (id : DocumentId) : Stage JobOutcome := do
  let response ← ScanJobHandler.process sv id none
  return outcome response

end ScanWorker

end KnowledgeBase
