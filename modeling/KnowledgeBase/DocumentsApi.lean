import KnowledgeBase.Accounts
import KnowledgeBase.DriveHistory
import KnowledgeBase.EraseFailure
import KnowledgeBase.Repositories

/-! The endpoints over the documents. Each is one request by an account that has signed in. -/

namespace KnowledgeBase

/-- An entry of the audit log, with the one detail that is read back. -/
structure AuditRecord where
  documentId : DocumentId
  eventType : AuditEventType
  eventTime : Nat
  canonicalDocumentId : Option DocumentId
  details : List (String × String)

structure Api where
  drive : DriveState
  createdAt : DocumentId → Nat
  users : Users
  records : List AuditRecord

/-- What a request meets: the time, what goes wrong, and the order in which a query returns its
rows. -/
structure Moment where
  now : Nat
  luck : EraseLuck
  sort : List Document → List Document
  sort_perm : ∀ ds, (sort ds).Perm ds

inductive ApiRequest where
  | status (id : DocumentId)
  | classify (id : DocumentId) (classification : Classification) (reason : Option String)
  | download (id : DocumentId)
  | chunks (id : DocumentId) (limit offset : Int)
  | delete (id : DocumentId)
  | restore (id : DocumentId)
  | deleted (limit : Int)
  | list (limit offset : Int)
  | search (q : String) (limit offset : Int)

structure HttpError where
  status : Nat
  detail : String

structure DuplicateOf where
  documentId : DocumentId
  filename : String
  deleted : Bool
  canRestore : Bool

structure StatusOut where
  documentId : DocumentId
  filename : String
  title : Option String
  description : Option String
  status : String
  classification : Option String
  documentDate : Option Nat
  uploadedBy : Option Text
  version : Nat
  supersedesId : Option DocumentId
  rejectionReason : Option String
  rawPath : Option ObjectKey
  uploadBatchId : Option Nat
  createdAt : Nat
  latestEvent : Option AuditRecord
  duplicateOf : Option DuplicateOf

structure ReclassifiedOut where
  documentId : DocumentId
  filename : String
  status : String
  classification : Option String
  previousClassification : Option String
  reclassifiedBy : Text
  message : String

structure ChunkOut where
  chunkId : ChunkId
  chunkIndex : Nat
  pageNumber : Option Nat
  sectionHeading : Option String
  isTable : Bool
  charCount : Nat
  embedded : Bool
  text : String

structure ChunksOut where
  documentId : DocumentId
  filename : String
  status : String
  total : Nat
  limit : Nat
  offset : Nat
  chunks : List ChunkOut

/-- A document as it is dumped, with the address of whoever uploaded it. -/
structure DocumentOut where
  document : Document
  createdAt : Nat
  uploadedBy : Option Text

inductive ApiReply where
  | error (e : HttpError)
  | raised
  | status (r : StatusOut)
  | reclassified (r : ReclassifiedOut)
  | content (data : Bytes) (mediaType disposition : String)
  | chunks (r : ChunksOut)
  | deleted (id : DocumentId)
  | restored (id : DocumentId) (status : String)
  | deletedDocuments (ds : List (DocumentOut × Bool))
  | page (total limit offset : Nat) (query : Option String) (ds : List DocumentOut)

def isAdmin (role : UserRole) : Bool := role = .admin

/-- `_can_view`. -/
def canSee (currentUser : User) (d : Document) : Bool :=
  canView d.classification d.ownerId (some currentUser.userId) (isAdmin currentUser.role)

def isOwner (currentUser : User) (d : Document) : Bool :=
  d.ownerId ≠ none && d.ownerId = some currentUser.userId

/-- Owner or ADMIN. -/
def mayChange (currentUser : User) (d : Document) : Bool :=
  isOwner currentUser d || currentUser.role = .admin

def safeDispositionFilename (filename : String) : String :=
  String.ofList (filename.toList.filter fun c => c ≠ '\r' && c ≠ '\n' && c ≠ '"')

namespace Api

def notFound (id : DocumentId) : ApiReply := .error ⟨404, s!"Document with ID {id} not found."⟩

def forbidden (what : String) : ApiReply :=
  .error ⟨403, s!"FORBIDDEN: Only the uploader or an ADMIN may {what} this document."⟩

def gone (rest : String) : ApiReply :=
  .error ⟨410, s!"GONE: This document was permanently deleted and {rest}."⟩

def conflict (detail : String) : ApiReply := .error ⟨409, detail⟩

variable (a : Api)

def world : World := a.drive.world

def doc (id : DocumentId) : Option Document := a.drive.world.doc id

def withWorld (w : World) : Api := { a with drive := { a.drive with world := w } }

def repository : PostgreSQLDocumentRepository := ⟨a.world.documents, a.createdAt⟩

/-- The document under an id, if the caller may see it. -/
def docFor (currentUser : User) (id : DocumentId) : Option Document :=
  (a.doc id).filter (canSee currentUser)

def uploaderEmail (d : Document) : Option Text :=
  d.ownerId.bind fun id => (a.users.get id).map User.email

def withUploader (d : Document) : DocumentOut := ⟨d, a.createdAt d.id, a.uploaderEmail d⟩

def recordsOf (id : DocumentId) : List AuditRecord := a.records.filter (·.documentId = id)

def removedFromDrive (id : DocumentId) : Bool := SyncState.removedFromDrive a.drive id

/-- What the last refusal of a document names as the one it is a copy of. -/
def canonicalOf (id : DocumentId) : Option DocumentId :=
  ((a.recordsOf id).filter (·.eventType = .documentRejected)).getLast?.bind
    AuditRecord.canonicalDocumentId

/-- For a refused re-upload the document it matched, if the caller may see it. -/
def duplicateOf (currentUser : User) (d : Document) : Option DuplicateOf :=
  if d.status ≠ .duplicate then none
  else match (a.canonicalOf d.id).bind (a.docFor currentUser) with
    | none => none
    | some canonical =>
      if canonical.purgedAt ≠ none then none
      else some
        { documentId := canonical.id
          filename := canonical.filename
          deleted := canonical.deletedAt ≠ none
          canRestore := canonical.deletedAt ≠ none && mayChange currentUser canonical &&
            canonical.status ≠ .superseded && !a.removedFromDrive canonical.id }

/-- Best effort, in a transaction of its own. -/
def log (written : Bool) (record : AuditRecord) : Api :=
  if written then
    { a with
      drive := { a.drive with
        world := a.world.auditEvent record.documentId record.eventType true }
      records := a.records ++ [record] }
  else a

def getDocumentStatus (currentUser : User) (id : DocumentId) : ApiReply :=
  match a.docFor currentUser id with
  | none => notFound id
  | some d => .status
    { documentId := d.id, filename := d.filename, title := d.title, description := d.description,
      status := d.status.value, classification := d.classification.map Classification.value,
      documentDate := d.documentDate, uploadedBy := a.uploaderEmail d, version := d.version,
      supersedesId := d.supersedesId, rejectionReason := d.rejectionReason, rawPath := d.rawPath,
      uploadBatchId := d.uploadBatchId, createdAt := a.createdAt d.id,
      latestEvent := (a.recordsOf d.id).getLast?, duplicateOf := a.duplicateOf currentUser d }

def tierText (classification : Option Classification) : String :=
  (classification.map Classification.value).getD "None"

def reclassified (currentUser : User) (previous : Option Classification)
    (classification : Classification) (updated : Document) : ApiReply :=
  let old := tierText previous
  let new := classification.value
  .reclassified
    { documentId := updated.id, filename := updated.filename, status := updated.status.value,
      classification := updated.classification.map Classification.value,
      previousClassification := previous.map Classification.value,
      reclassifiedBy := currentUser.email,
      message := s!"Classification changed from {old} to {new}." }

def reclassifyDocument (m : Moment) (currentUser : User) (id : DocumentId)
    (classification : Classification) (reason : Option String) : ApiReply × Api :=
  match a.docFor currentUser id with
  | none => (notFound id, a)
  | some d =>
    let previous := tierText d.classification
    if !mayChange currentUser d then (forbidden "reclassify", a)
    else if d.purgedAt ≠ none then (gone "can no longer be reclassified", a)
    else if d.classification = some classification then
      (conflict s!"NO_CHANGE: Document is already classified '{previous}'.", a)
    else
      let a := a.log m.luck.auditWritten
        ⟨id, .documentReclassified, m.now, none,
          [("old_tier", previous), ("new_tier", classification.value),
            ("reason", reason.getD "None")]⟩
      let a := a.withWorld (a.world.setClassification id classification)
      (reclassified currentUser d.classification classification ((a.doc id).getD d), a)

def downloadDocument (currentUser : User) (id : DocumentId) : ApiReply :=
  match a.docFor currentUser id with
  | none => notFound id
  | some d =>
    if d.purgedAt ≠ none then gone "its content no longer exists"
    else match d.rawPath with
      | none =>
        let status := d.status.value
        conflict s!"NOT_AVAILABLE: Document is '{status}' and has no promoted content to download."
      | some key =>
        match a.world.objects .raw key with
        | none => .raised
        | some data =>
          let name := safeDispositionFilename d.filename
          .content data d.mimeType s!"inline; filename=\"{name}\""

def getDocumentChunks (currentUser : User) (id : DocumentId) (limit offset : Int) : ApiReply :=
  match a.docFor currentUser id with
  | none => notFound id
  | some d =>
    let limit := (max 1 (min limit 1000)).toNat
    let offset := (max 0 offset).toNat
    let rows := a.world.chunksOf id
    .chunks
      { documentId := id, filename := d.filename, status := d.status.value, total := rows.length,
        limit, offset
        chunks := ((rows.drop offset).take limit).map fun c =>
          { chunkId := c.chunkId, chunkIndex := c.passage.index,
            pageNumber := c.passage.pageNumber, sectionHeading := c.passage.sectionHeading,
            isTable := c.passage.isTable, charCount := c.charCount,
            embedded := c.embedding.isSome, text := c.passage.text } }

def deleteDocument (m : Moment) (currentUser : User) (id : DocumentId) : ApiReply × Api :=
  match a.docFor currentUser id with
  | none => (notFound id, a)
  | some d =>
    if !mayChange currentUser d then (forbidden "delete", a)
    else if d.purgedAt ≠ none then (notFound id, a)
    else
      let (outcome, w) := World.eraseAttempt m.luck a.world d
      let record : AuditRecord :=
        ⟨id, .documentDeleted, m.now, none,
          [("erased_sha256", d.checksum.getD "None"), ("erased_filename", d.filename)]⟩
      let recorded := { a.withWorld w with
        records := if m.luck.auditWritten then a.records ++ [record] else a.records }
      match outcome with
      | .documentBusy =>
        (conflict "BUSY: This file is being processed right now. Delete it again in a few seconds.",
          a)
      | .storageEraseFailed _ => (.error ⟨500, "STORAGE_ERROR: Could not erase the stored file. " ++
          "Nothing was deleted — please retry."⟩, recorded)
      | .databaseError => (.raised, recorded)
      | .erased => (.deleted id, recorded)

def restoredRecord (m : Moment) (id : DocumentId) (d : Document) : AuditRecord :=
  ⟨id, .documentRestored, m.now, none, [("reason", "restored-in-app"), ("filename", d.filename)]⟩

def restoreDocument (m : Moment) (currentUser : User) (id : DocumentId) : ApiReply × Api :=
  match a.docFor currentUser id with
  | none => (notFound id, a)
  | some d =>
    if !mayChange currentUser d then (forbidden "restore", a)
    else if d.purgedAt ≠ none then (gone "its content no longer exists", a)
    else if d.deletedAt = none then (conflict "NOT_DELETED: This document is not deleted.", a)
    else if d.status = .superseded then
      (conflict "SUPERSEDED: This is an older version, replaced when the file was edited.", a)
    else if a.removedFromDrive id then
      (conflict ("FROM_DRIVE: This file was removed from the Google Drive folder. Put it back " ++
        "in the folder and the next sync restores it."), a)
    else
      let a := a.log m.luck.auditWritten (restoredRecord m id d)
      match a.world.restore id with
      | (true, w) => (.restored id d.status.value, a.withWorld w)
      | (false, w) => (notFound id, a.withWorld w)

def listDeletedDocuments (m : Moment) (currentUser : User) (limit : Int) : ApiReply :=
  match a.repository.listDeleted m.sort (some currentUser.userId) (isAdmin currentUser.role)
      limit with
  | .documents ds => .deletedDocuments (ds.map fun d => (a.withUploader d, a.removedFromDrive d.id))
  | _ => .raised

def pageLimit (limit : Int) : Nat := (max 1 (min limit 200)).toNat

def pageOffset (offset : Int) : Nat := (max 0 offset).toNat

def listDocuments (m : Moment) (currentUser : User) (limit offset : Int) : ApiReply :=
  let p := a.repository.listPaginated (some currentUser.userId) (isAdmin currentUser.role) m.sort
    (pageLimit limit) (pageOffset offset)
  .page p.2 (pageLimit limit) (pageOffset offset) none (p.1.map a.withUploader)

def searchDocuments (u : Unicode) (e : TextSearch) (m : Moment) (currentUser : User) (q : String)
    (limit offset : Int) : ApiReply :=
  let query := String.ofList (strip u q.toList)
  if query = "" then .error ⟨422, "EMPTY_QUERY: q is required."⟩
  else
    let p := a.repository.search e (some currentUser.userId) (isAdmin currentUser.role) query m.sort
      (pageLimit limit) (pageOffset offset)
    .page p.2 (pageLimit limit) (pageOffset offset) (some q) (p.1.map a.withUploader)

def serve (u : Unicode) (e : TextSearch) (currentUser : User) (m : Moment) (request : ApiRequest)
    (a : Api) : ApiReply × Api :=
  let a := a.withWorld { a.world with now := m.now }
  match request with
  | .status id => (a.getDocumentStatus currentUser id, a)
  | .classify id classification reason =>
    a.reclassifyDocument m currentUser id classification reason
  | .download id => (a.downloadDocument currentUser id, a)
  | .chunks id limit offset => (a.getDocumentChunks currentUser id limit offset, a)
  | .delete id => a.deleteDocument m currentUser id
  | .restore id => a.restoreDocument m currentUser id
  | .deleted limit => (a.listDeletedDocuments m currentUser limit, a)
  | .list limit offset => (a.listDocuments m currentUser limit offset, a)
  | .search q limit offset => (a.searchDocuments u e m currentUser q limit offset, a)

end Api

end KnowledgeBase
