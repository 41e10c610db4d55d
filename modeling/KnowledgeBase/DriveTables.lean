import KnowledgeBase.FolderWalk
import KnowledgeBase.Supersession

/-! What the Drive connector keeps of each file and of the documents it became, which
files it can take, and the operations a sync acts with. -/

namespace KnowledgeBase

inductive DriveFileState where
  | imported | skipped | removed | failed
  deriving DecidableEq, Repr

inductive VersionState where
  | pending | current | superseded | duplicate | failed | removed
  deriving DecidableEq, Repr

/-- A row of drive_files. The columns copied from Drive are those of the file as it was
when the row was last recorded. -/
structure DriveFileRow where
  documentId : Option DocumentId
  seen : DriveFile
  folderId : Option FolderId
  classification : Option Classification
  state : DriveFileState
  skipReason : Option String
  deriving DecidableEq, Repr

/-- A row of drive_file_versions: one for each document a file has become. -/
structure FileVersion where
  documentId : DocumentId
  state : VersionState
  deriving DecidableEq, Repr

/-- The versions of a file stand in the order they were imported in. -/
structure DriveState where
  world : World
  files : List (FileId × DriveFileRow)
  versions : FileId → List FileVersion

namespace DriveState

def file (s : DriveState) (f : FileId) : Option DriveFileRow := Table.get s.files f

def doc (s : DriveState) (d : DocumentId) : Option Document := s.world.doc d

def putFile (s : DriveState) (f : FileId) (row : DriveFileRow) : DriveState :=
  { s with files := Table.put s.files f row }

def putVersions (s : DriveState) (f : FileId) (versions : List FileVersion) : DriveState :=
  { s with versions := Function.update s.versions f versions }

@[simp] theorem putVersions_versions (s : DriveState) (f : FileId) (vs : List FileVersion) :
    (s.putVersions f vs).versions f = vs := by
  simp [putVersions]

@[simp] theorem putVersions_self (s : DriveState) (f : FileId) :
    s.putVersions f (s.versions f) = s := by
  simp [putVersions]

end DriveState

def googleExports : List (String × (String × String)) :=
  [("application/vnd.google-apps.document",
      ("application/vnd.openxmlformats-officedocument.wordprocessingml.document", ".docx")),
   ("application/vnd.google-apps.spreadsheet",
      ("application/vnd.openxmlformats-officedocument.spreadsheetml.sheet", ".xlsx")),
   ("application/vnd.google-apps.presentation",
      ("application/vnd.openxmlformats-officedocument.presentationml.presentation", ".pptx"))]

def unexportable : List (String × String) :=
  [("application/vnd.google-apps.form", "a Google Form"),
   ("application/vnd.google-apps.drawing", "a Google Drawing"),
   ("application/vnd.google-apps.map", "a Google My Map"),
   ("application/vnd.google-apps.site", "a Google Site"),
   ("application/vnd.google-apps.script", "an Apps Script project"),
   ("application/vnd.google-apps.jam", "a Jamboard"),
   ("application/vnd.google-apps.shortcut", "a shortcut to another file")]

def exportTarget (driveMime : String) : Option (String × String) :=
  Table.get googleExports driveMime

def unexportableReason (driveMime : String) : Option String :=
  match Table.get unexportable driveMime with
  | some what => some s!"{what} — it has no document form this pipeline can read"
  | none =>
    if "application/vnd.google-apps.".toList <+: driveMime.toList ∧
        (exportTarget driveMime).isNone then
      some s!"an unrecognised Google-native type ({driveMime})"
    else none

/-- What the connector is set up with; the format of a file is read off its bytes. -/
structure DriveConfig where
  maxBytes : Nat
  ownerOf : Option String → UserId
  detectFormat : Bytes → Option String

/-- The operations of a sync, each a transaction of its own. -/
inductive DriveOp where
  | repository (op : Op)
  | getFile (fileId : FileId)
  | putFile (fileId : FileId) (row : DriveFileRow)
  | getVersions (fileId : FileId)
  | setVersionState (fileId : FileId) (documentId : DocumentId) (state : VersionState)
  | addVersion (fileId : FileId) (version : FileVersion)
  | fetchBytes (item : DriveFile)

@[reducible] def DriveOp.Resp : DriveOp → Type
  | repository op => op.Resp
  | getFile _ => Option DriveFileRow
  | getVersions _ => List FileVersion
  | fetchBytes _ => Bytes
  | _ => Unit

/-- The database may be out as well, with the exception it raises then. -/
structure DriveLuck where
  storage : Luck
  outage : Option Exn
  deriving Inhabited

def DriveLuck.fine : DriveLuck := { storage := .fine, outage := none }

/-- An outage of the database stops these; an audit write it only loses. -/
def Op.needsDatabase : Op → Bool
  | getById _ | getByChecksum _ | create _ | updateDocument _ | setClassification _ _
  | softDelete _ | restore _ | enqueue _ _ | persistChunks _ _ _ | loadChunks _
  | writeEmbeddings _ => true
  | _ => false

def repositoryEffect (sv : Services) (c : DriveLuck) (op : Op) (w : World) :
    Except Exn op.Resp × World :=
  match c.outage with
  | none => effect sv c.storage op w
  | some e =>
    if op.needsDatabase then (.error e, w)
    else effect sv (if op matches .audit _ _ _ then .silent else c.storage) op w

def FileVersion.marked (d : DocumentId) (state : VersionState) (v : FileVersion) : FileVersion :=
  if v.documentId = d then { v with state } else v

/-- `fetched` is what Drive gives for the content of the file in hand. -/
def driveEffect (sv : Services) (fetched : Except Exn Bytes) :
    DriveLuck → (op : DriveOp) → DriveState → Except Exn op.Resp × DriveState
  | c, .repository op, s =>
    ((repositoryEffect sv c op s.world).1,
      { s with world := (repositoryEffect sv c op s.world).2 })
  | _, .fetchBytes _, s => (fetched, s)
  | { outage := some e, .. }, _, s => (.error e, s)
  | _, .getFile f, s => (.ok (s.file f), s)
  | _, .putFile f row, s => (.ok (), s.putFile f row)
  | _, .getVersions f, s => (.ok (s.versions f), s)
  | _, .setVersionState f d state, s =>
    (.ok (), s.putVersions f ((s.versions f).map (FileVersion.marked d state)))
  | _, .addVersion f v, s => (.ok (), s.putVersions f (s.versions f ++ [v]))

abbrev DriveStage (α : Type) := Program DriveOp DriveOp.Resp Exn α

/-- A program that works on the documents alone. -/
def onDocuments {α : Type} : Stage α → DriveStage α
  | .ret a => .ret a
  | .raise e => .raise e
  | .call op next => .call (.repository op) fun r => onDocuments (next r)

def ask (op : DriveOp) : DriveStage op.Resp := Program.perform op

end KnowledgeBase
