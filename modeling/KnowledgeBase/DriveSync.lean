import KnowledgeBase.DriveTables

/-! One sync of a Drive file, the retirement of a file that is gone, and the reconciliation
of the versions the pipeline has dealt with. -/

namespace KnowledgeBase

open Program

/-- The quotient, rounded to the nearest and from halfway to the even one. -/
def roundHalfEven (n d : Nat) : Nat :=
  if 2 * (n % d) < d ∨ 2 * (n % d) = d ∧ n / d % 2 = 0 then n / d else n / d + 1

def sizeReason (size maxBytes : Nat) : String :=
  let tenths := roundHalfEven (size * 10) (1024 * 1024)
  let limit := roundHalfEven maxBytes (1024 * 1024)
  s!"{tenths / 10}.{tenths % 10}MB exceeds the {limit}MB limit"

/-- `str(e)[:500]`. -/
def clipped (message : String) : String := String.ofList (message.toList.take 500)

namespace FileVersion

/-- Visible, or still to become so. -/
def live (v : FileVersion) : Bool := v.state = .current || v.state = .pending

def retired (state : VersionState) (v : FileVersion) : FileVersion :=
  if v.live then { v with state } else v

end FileVersion

namespace DriveSyncService

/-- Statuses at which a document has stopped moving without becoming searchable. -/
def failedStatuses : List DocumentStatus :=
  [.rejected, .validationFailed, .extractionFailed, .normalizationFailed, .chunkingFailed,
    .embeddingFailed, .skippedUnsupportedLanguage]

def record (item : DriveFile) (state : DriveFileState) (tier : Classification)
    (folderId : FolderId) (documentId : Option DocumentId) (skipReason : Option String) :
    DriveStage Unit := do
  let row ← ask (.getFile item.fileId)
  ask (.putFile item.fileId
    { documentId := documentId.or (row.bind DriveFileRow.documentId), seen := item,
      folderId := some folderId, classification := some tier, state, skipReason })

/-- The checksums where there are two, and else the modified times. -/
def contentChanged (row : DriveFileRow) (item : DriveFile) : Bool :=
  match item.md5, row.seen.md5 with
  | some md5, some seen =>
    if md5 ≠ "" ∧ seen ≠ "" then md5 ≠ seen else item.modifiedTime ≠ row.seen.modifiedTime
  | _, _ => item.modifiedTime ≠ row.seen.modifiedTime

/-- The name the bytes are stored under. -/
def storedName (item : DriveFile) : String :=
  match exportTarget item.mimeType with
  | none => item.name
  | some (_, extension) =>
    if extension.toList <:+ item.name.toLower.toList then item.name else item.name ++ extension

/-- The tier of the document imported last, where it is stricter than the folder's and the
file has stayed in its folder. -/
def inheritedTier (existing : DriveFileRow) (tier : Classification) :
    DriveStage Classification :=
  if existing.classification ≠ some tier then return tier
  else
    match existing.documentId with
    | none => return tier
    | some documentId => do
      let previous ← ask (.repository (.getById documentId))
      match previous.bind Document.classification with
      | none => return tier
      | some earlier => return if isStricter (some earlier) (some tier) then earlier else tier

def request (importTier : Classification) (ownerId : UserId) : UploadRequest :=
  { classification := importTier, supersedesDocId := none, keepPreviousVersion := true,
    ownerId := some ownerId, title := none, description := none, documentDate := none,
    uploadBatchId := none }

/-- Received by the pipeline, recorded, and then known as a version of the file. -/
def importBytes (cfg : DriveConfig) (id : DocumentId) (item : DriveFile) (tier : Classification)
    (folderId : FolderId) (existing : Option DriveFileRow) (data : Bytes) (mimeType : String) :
    DriveStage Unit := do
  let importTier ←
    match existing with
    | none => pure tier
    | some row => inheritedTier row tier
  let response ← onDocuments (UploadService.receive id (storedName item) data
    (request importTier (cfg.ownerOf item.ownerEmail)) mimeType)
  record item .imported tier folderId (some response.documentId) none
  ask (.addVersion item.fileId { documentId := response.documentId, state := .pending })

/-- New content. `existing` is the row the file has as an edited one, and none where it is
not imported as a new version. -/
def importContent (cfg : DriveConfig) (id : DocumentId) (item : DriveFile)
    (tier : Classification) (folderId : FolderId) (existing : Option DriveFileRow) :
    DriveStage Unit :=
  let skip (reason : String) := record item .skipped tier folderId none (some reason)
  match unexportableReason item.mimeType with
  | some reason => skip reason
  | none =>
    match item.size.filter (cfg.maxBytes < ·) with
    | some size => skip (sizeReason size cfg.maxBytes)
    | none => do
      let data ← ask (.fetchBytes item)
      if data.isEmpty then skip "the file is empty"
      else
        match cfg.detectFormat data with
        | none => skip "not a PDF, DOCX, XLSX or PPTX"
        | some mimeType => importBytes cfg id item tier folderId existing data mimeType

/-- The version removed last, or else the document imported last, comes back. -/
def restore (fileId : FileId) (row : DriveFileRow) : DriveStage Unit := do
  let versions ← ask (.getVersions fileId)
  let version := (versions.filter (·.state = .removed)).getLast?
  match (version.map FileVersion.documentId).or row.documentId with
  | none => return ()
  | some documentId => do
    let back ← ask (.repository (.restore documentId))
    if back then ask (.repository (.audit documentId .documentRestored true))
    if version.isSome then ask (.setVersionState fileId documentId .pending)

def reclassifyAll (tier : Classification) : List DocumentId → DriveStage Unit
  | [] => return ()
  | documentId :: rest => do
    let doc ← ask (.repository (.getById documentId))
    match doc with
    | none => reclassifyAll tier rest
    | some doc =>
      if doc.purgedAt ≠ none ∨ doc.classification = some tier then reclassifyAll tier rest
      else do
        ask (.repository (.setClassification documentId tier))
        ask (.repository (.audit documentId .documentReclassified true))
        reclassifyAll tier rest

/-- The documents a file has open, or else the one imported last. -/
def targets (versions : List FileVersion) (row : DriveFileRow) : List DocumentId :=
  let live := versions.filter FileVersion.live
  if live.isEmpty then row.documentId.toList else live.map FileVersion.documentId

def reclassify (fileId : FileId) (row : DriveFileRow) (tier : Classification) :
    DriveStage Unit := do
  let versions ← ask (.getVersions fileId)
  reclassifyAll tier (targets versions row)

def unchangedContent (row : DriveFileRow) (item : DriveFile) (tier : Classification)
    (folderId : FolderId) : DriveStage Unit := do
  if row.state = .removed then restore item.fileId row
  if row.classification ≠ some tier then reclassify item.fileId row tier
  record item .imported tier folderId none none

/-- The row of a file that has been imported. -/
def known (row : Option DriveFileRow) : Option DriveFileRow :=
  row.filter fun r => r.documentId.isSome && (r.state = .imported || r.state = .removed)

def syncOne (cfg : DriveConfig) (id : DocumentId) (item : DriveFile) (tier : Classification)
    (folderId : FolderId) : DriveStage Unit := do
  let existing ← ask (.getFile item.fileId)
  match known existing with
  | none => importContent cfg id item tier folderId none
  | some row =>
    if contentChanged row item then
      importContent cfg id item tier folderId (if row.state = .imported then some row else none)
    else unchangedContent row item tier folderId

/-- One surprising file does not end the pass. -/
def syncItem (cfg : DriveConfig) (id : DocumentId) (item : DriveFile) (tier : Classification)
    (folderId : FolderId) : DriveStage Unit := do
  let done ← attempt (syncOne cfg id item tier folderId)
  match done with
  | .ok _ => return ()
  | .error e => record item .failed tier folderId none (some (clipped e.message))

/-- The files that are gone from the listing. -/
def vanished (s : DriveState) (found : List FileId) : List FileId :=
  (s.files.filter fun p => p.2.state = .imported && !found.contains p.1).map Prod.fst

def retireDocument (w : World) (d : DocumentId) : World :=
  if (w.softDelete d).1 then (w.softDelete d).2.auditEvent d .documentDeleted true
  else (w.softDelete d).2

def retireFile (s : DriveState) (f : FileId) : DriveState :=
  match s.file f with
  | none => s
  | some row =>
    { world := (targets (s.versions f) row).foldl retireDocument s.world
      files := Table.put s.files f
        { row with state := .removed, skipReason := some "no longer in a watched Drive folder" }
      versions := Function.update s.versions f
        ((s.versions f).map (FileVersion.retired .removed)) }

/-- The files with a version that is pending. -/
def pendingFiles (s : DriveState) : List FileId :=
  (s.files.map Prod.fst).filter fun f => (s.versions f).any (·.state = .pending)

/-- A pending version is settled on its own terms. -/
def settled (w : World) (v : FileVersion) : FileVersion :=
  if v.state ≠ .pending then v
  else
    match (w.doc v.documentId).map Document.status with
    | none => v
    | some status =>
      if status = .duplicate then { v with state := .duplicate }
      else if status ∈ failedStatuses then { v with state := .failed }
      else v

def supersedeVersion (sv : Services) (newest : DocumentId) (w : World) (v : FileVersion) :
    World :=
  if v.live then
    (run (effect sv) (fun _ => .fine) (supersede (w.doc v.documentId) (w.doc newest)) w).2
  else w

/-- The newest version retires the older ones once its document is live. -/
def reconcileFile (sv : Services) (s : DriveState) (f : FileId) : DriveState :=
  let versions := (s.versions f).map (settled s.world)
  match versions.getLast? with
  | none => s
  | some newest =>
    if newest.state ≠ .pending ∨
        (s.doc newest.documentId).map Document.status ≠ some .live then
      s.putVersions f versions
    else
      { s with
        world := versions.dropLast.foldl (supersedeVersion sv newest.documentId) s.world
        versions := Function.update s.versions f
          (versions.dropLast.map (FileVersion.retired .superseded) ++
            [{ newest with state := .current }]) }

end DriveSyncService

end KnowledgeBase
