import KnowledgeBase.DocumentPages
import KnowledgeBase.Erasure

/-! The two repositories of documents: the one over PostgreSQL, and the one in memory that the
tests of the pipeline run on. -/

namespace KnowledgeBase

open Ranking (Orders orderBy page)

/-- The Python form of the rule on who sees a document. -/
def canView (classification : Option Classification) (ownerId viewerId : Option UserId)
    (viewerIsAdmin : Bool) : Bool :=
  if classification ≠ some .restricted then true
  else if viewerIsAdmin then true
  else ownerId ≠ none && ownerId = viewerId

/-- The two forms of the rule agree. -/
theorem canView_eq (d : Document) (viewerId : Option UserId) (viewerIsAdmin : Bool) :
    canView d.classification d.ownerId viewerId viewerIsAdmin =
      visibleDocumentsClause d viewerId viewerIsAdmin := by
  unfold canView visibleDocumentsClause
  cases viewerIsAdmin with
  | true => simp
  | false =>
    cases viewerId with
    | none => by_cases h : d.classification = some .restricted <;> simp [h]
    | some v =>
      by_cases h : d.classification = some .restricted
      · cases howner : d.ownerId <;> simp [h]
      · simp [h]

/-- What a caller asks of a repository. A document that is handed in brings the `created_at` of
its own that the caller's copy has. -/
inductive RepositoryCall where
  | create (doc : Document) (createdAt : Nat)
  | getById (id : DocumentId)
  | getByChecksum (checksum : Sha256)
  | updateDocument (doc : Document) (createdAt : Nat)
  | setClassification (id : DocumentId) (classification : Classification)
  | softDelete (id : DocumentId)
  | restore (id : DocumentId)
  | listDeleted (viewerId : Option UserId) (viewerIsAdmin : Bool) (limit : Int)
  | listPaginated (limit offset : Nat) (viewerId : Option UserId) (viewerIsAdmin : Bool)
  | purge (id : DocumentId)
  | purgeDuplicatesOf (checksum : Sha256)
  deriving DecidableEq

inductive Answer where
  | document (d : Option Document)
  | documents (ds : List Document)
  | page (ds : List Document) (total : Nat)
  | done (b : Bool)
  | count (n : Nat)
  | integrityError
  deriving DecidableEq

namespace Documents

theorem map_id_update (p : Document → Bool) (f : Document → Document) (rows : List Document) :
    (Table.update p (fun r => { f r with id := r.id }) rows).map Document.id =
      rows.map Document.id := by
  rw [Table.update, List.map_map]
  refine List.map_congr_left ?_
  intro r _
  rw [Function.comp_apply]
  split <;> rfl

/-- `UPDATE documents SET f WHERE p`, unless the index refuses it. -/
def modifyAll (t : Documents) (p : Document → Bool) (f : Document → Document) :
    Option Documents :=
  let rows := Table.update p (fun r => { f r with id := r.id }) t.rows
  if h : UniqueActive rows then some ⟨rows, (map_id_update p f t.rows).symm ▸ t.ids, h⟩ else none

end Documents

/-- `deleted_at DESC`. -/
def lastDeleted (d : Document) : Natᵒᵈ := OrderDual.toDual (d.deletedAt.getD 0)

/-- The rows of `list_deleted`. -/
def offeredBack (rows : List Document) (viewerId : Option UserId) (viewerIsAdmin : Bool) :
    List Document :=
  rows.filter fun d =>
    d.deletedAt ≠ none && d.purgedAt = none && d.status ≠ .superseded && d.status ≠ .duplicate &&
      (viewerIsAdmin || (viewerId ≠ none && d.ownerId = viewerId))

def deletedLimit (limit : Int) : Nat := (max 1 (min limit 500)).toNat

def Document.duplicateOf (d : Document) (checksum : Sha256) : Bool :=
  d.checksum = some checksum && d.status = .duplicate

/-- The tombstone of a refused re-upload. -/
def Document.purgedDuplicate (d : Document) (now : Nat) : Document :=
  { d.purged now with rawPath := d.rawPath }

namespace PostgreSQLDocumentRepository

-- Which rows the constraints of the table take beside the rows there are, its two unique keys
-- and the tier apart: the checks, the foreign keys and the widths of the columns.
variable (admits : List Document → Document → Bool)
variable (r : PostgreSQLDocumentRepository) (now : Nat)

/-- A commit, and what is answered after it. -/
def saved (t : Option Documents) (answer : Documents → Answer) :
    Option (Answer × PostgreSQLDocumentRepository) :=
  t.map fun t => (answer t, { r with documents := t })

def create (doc : Document) : Option (Answer × PostgreSQLDocumentRepository) :=
  if (r.documents.get doc.id).isSome ∨ doc.classification = none ∨
      ¬ admits r.documents.rows doc.created then
    some (.integrityError, r)
  else
    (r.documents.insert doc.created).map fun t =>
      (.document (t.get doc.id),
        { documents := t, createdAt := Function.update r.createdAt doc.id now })

def updateDocument (doc : Document) : Option (Answer × PostgreSQLDocumentRepository) :=
  match r.documents.get doc.id with
  | none => r.create admits now doc
  | some row =>
    if ¬ admits r.documents.rows (doc.writeBack row) then some (.integrityError, r)
    else r.saved (r.documents.modify doc.id doc.writeBack) fun t => .document (t.get doc.id)

def setClassification (id : DocumentId) (classification : Classification) :
    Option (Answer × PostgreSQLDocumentRepository) :=
  r.saved (r.documents.modify id fun row => { row with classification := some classification })
    fun t => .document (t.get id)

def softDelete (id : DocumentId) : Option (Answer × PostgreSQLDocumentRepository) :=
  match r.documents.get id with
  | none => some (.done false, r)
  | some row =>
    if row.deletedAt = none ∧ row.purgedAt = none then
      r.saved (r.documents.modify id fun row => { row with deletedAt := some now })
        fun _ => .done true
    else some (.done false, r)

def restore (id : DocumentId) : Option (Answer × PostgreSQLDocumentRepository) :=
  match r.documents.get id with
  | none => some (.done false, r)
  | some row =>
    if row.deletedAt ≠ none ∧ row.purgedAt = none then
      r.saved (r.documents.modify id fun row => { row with deletedAt := none }) fun _ => .done true
    else some (.done false, r)

/-- `sort` is the order in which the database returns the rows. -/
def listDeleted (sort : List Document → List Document) (viewerId : Option UserId)
    (viewerIsAdmin : Bool) (limit : Int) : Answer :=
  if ¬ viewerIsAdmin ∧ viewerId = none then .documents []
  else .documents
    ((sort (offeredBack r.documents.rows viewerId viewerIsAdmin)).take (deletedLimit limit))

def purge (id : DocumentId) : Option (Answer × PostgreSQLDocumentRepository) :=
  match r.documents.get id with
  | none => some (.done false, r)
  | some row =>
    if row.purgedAt = none then
      r.saved (r.documents.modify id fun row => row.purged now) fun _ => .done true
    else some (.done false, r)

def purgeDuplicatesOf (checksum : Sha256) : Option (Answer × PostgreSQLDocumentRepository) :=
  r.saved (r.documents.modifyAll (·.duplicateOf checksum) (·.purgedDuplicate now))
    fun _ => .count (r.documents.rows.countP (·.duplicateOf checksum))

/-- Nothing, where the index of active hashes refuses the call. -/
def perform (sort : List Document → List Document) :
    RepositoryCall → Option (Answer × PostgreSQLDocumentRepository)
  | .create doc _ => r.create admits now doc
  | .getById id => some (.document (r.documents.get id), r)
  | .getByChecksum checksum => some (.document (r.documents.getByChecksum checksum), r)
  | .updateDocument doc _ => r.updateDocument admits now doc
  | .setClassification id classification => r.setClassification id classification
  | .softDelete id => r.softDelete now id
  | .restore id => r.restore id
  | .listDeleted viewerId viewerIsAdmin limit =>
    some (r.listDeleted sort viewerId viewerIsAdmin limit, r)
  | .listPaginated limit offset viewerId viewerIsAdmin =>
    let p := r.listPaginated viewerId viewerIsAdmin sort limit offset
    some (.page p.1 p.2, r)
  | .purge id => r.purge now id
  | .purgeDuplicatesOf checksum => r.purgeDuplicatesOf now checksum

/-- The orders that the `ORDER BY` of a call allows. -/
def Lays (sort : List Document → List Document) : RepositoryCall → Prop
  | .listDeleted viewerId viewerIsAdmin _ =>
    Orders lastDeleted (offeredBack r.documents.rows viewerId viewerIsAdmin)
      (sort (offeredBack r.documents.rows viewerId viewerIsAdmin))
  | .listPaginated _ _ viewerId viewerIsAdmin =>
    Orders r.newest (r.listed viewerId viewerIsAdmin) (sort (r.listed viewerId viewerIsAdmin))
  | _ => True

end PostgreSQLDocumentRepository

/-- A dict from ids to documents, in the order of insertion. -/
structure InMemoryDocumentRepository where
  storage : List Document
  createdAt : DocumentId → Nat

namespace InMemoryDocumentRepository

variable (r : InMemoryDocumentRepository) (now : Nat)

def get (id : DocumentId) : Option Document := Table.lookup Document.id r.storage id

/-- `self._storage[doc.id] = doc`. -/
def put (doc : Document) (createdAt : Nat) : InMemoryDocumentRepository where
  storage :=
    if (r.get doc.id).isSome then Table.update (fun d => d.id = doc.id) (fun _ => doc) r.storage
    else r.storage ++ [doc]
  createdAt := Function.update r.createdAt doc.id createdAt

/-- The stored object itself is changed. -/
def alter (id : DocumentId) (f : Document → Document) : InMemoryDocumentRepository :=
  { r with storage := Documents.rewrite id f r.storage }

def create (doc : Document) (createdAt : Nat) : Answer × InMemoryDocumentRepository :=
  (.document (some doc), r.put doc createdAt)

def getByChecksum (checksum : Sha256) : Option Document :=
  r.storage.find? fun d => d.checksum = some checksum && d.active

def updateDocument (doc : Document) (createdAt : Nat) : Answer × InMemoryDocumentRepository :=
  match r.get doc.id with
  | none => (.document (some doc), r.put doc createdAt)
  | some stored =>
    let saved := { doc with classification := stored.classification }
    (.document (some saved), r.put saved createdAt)

def setClassification (id : DocumentId) (classification : Classification) :
    Answer × InMemoryDocumentRepository :=
  match r.get id with
  | none => (.document none, r)
  | some _ =>
    let r := r.alter id fun d => { d with classification := some classification }
    (.document (r.get id), r)

def softDelete (id : DocumentId) : Answer × InMemoryDocumentRepository :=
  match r.get id with
  | none => (.done false, r)
  | some doc =>
    if doc.deletedAt ≠ none ∨ doc.purgedAt ≠ none then (.done false, r)
    else (.done true, r.alter id fun d => { d with deletedAt := some now })

def restore (id : DocumentId) : Answer × InMemoryDocumentRepository :=
  match r.get id with
  | none => (.done false, r)
  | some doc =>
    if doc.deletedAt = none ∨ doc.purgedAt ≠ none then (.done false, r)
    else (.done true, r.alter id fun d => { d with deletedAt := none })

def listDeleted (viewerId : Option UserId) (viewerIsAdmin : Bool) (limit : Int) : Answer :=
  .documents
    ((orderBy lastDeleted (offeredBack r.storage viewerId viewerIsAdmin)).take
      (deletedLimit limit))

def newest (d : Document) : Natᵒᵈ := OrderDual.toDual (r.createdAt d.id)

def listPaginated (limit offset : Nat) (viewerId : Option UserId) (viewerIsAdmin : Bool) :
    Answer :=
  let docs := orderBy r.newest (r.storage.filter fun d =>
    d.deletedAt = none && canView d.classification d.ownerId viewerId viewerIsAdmin)
  .page (page limit offset docs) docs.length

def purge (id : DocumentId) : Answer × InMemoryDocumentRepository :=
  match r.get id with
  | none => (.done false, r)
  | some doc =>
    if doc.purgedAt ≠ none then (.done false, r)
    else (.done true, r.alter id fun d => d.purged now)

def purgeDuplicatesOf (checksum : Sha256) : Answer × InMemoryDocumentRepository :=
  (.count (r.storage.countP (·.duplicateOf checksum)),
    { r with storage := Table.update (·.duplicateOf checksum) (·.purgedDuplicate now) r.storage })

def perform : RepositoryCall → Answer × InMemoryDocumentRepository
  | .create doc createdAt => r.create doc createdAt
  | .getById id => (.document (r.get id), r)
  | .getByChecksum checksum => (.document (r.getByChecksum checksum), r)
  | .updateDocument doc createdAt => r.updateDocument doc createdAt
  | .setClassification id classification => r.setClassification id classification
  | .softDelete id => r.softDelete now id
  | .restore id => r.restore id
  | .listDeleted viewerId viewerIsAdmin limit => (r.listDeleted viewerId viewerIsAdmin limit, r)
  | .listPaginated limit offset viewerId viewerIsAdmin =>
    (r.listPaginated limit offset viewerId viewerIsAdmin, r)
  | .purge id => r.purge now id
  | .purgeDuplicatesOf checksum => r.purgeDuplicatesOf now checksum

end InMemoryDocumentRepository

end KnowledgeBase
