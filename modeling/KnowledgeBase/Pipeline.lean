import KnowledgeBase.Documents
import KnowledgeBase.Program

/-! The state the stages share and the operations they act on it with. Every database
operation is one committed transaction, every storage operation one call, and each
may go wrong in the ways the stages provide for. -/

namespace KnowledgeBase

abbrev Bytes := List UInt8
abbrev ChunkId := Nat
abbrev EmbeddingVector := List Rat

structure ExtractionResult where
  documentId : DocumentId
  mimeType : String
  units : List String
  extractionMethod : String
  deriving DecidableEq

structure QualityCheckResult where
  passed : Bool
  failures : List String
  deriving DecidableEq

structure NormalizationResult where
  documentId : DocumentId
  mimeType : String
  language : Option String
  units : List String
  quality : QualityCheckResult
  deriving DecidableEq

/-- `"\n\n".join(unit.text for unit in units if unit.text)`. -/
def NormalizationResult.fullText (r : NormalizationResult) : String :=
  "\n\n".intercalate (r.units.filter (· ≠ ""))

/-- A passage as the chunker returns it. -/
structure Passage where
  index : Nat
  text : String
  pageNumber : Option Nat
  sectionHeading : Option String
  isTable : Bool
  scale : String
  deriving DecidableEq

/-- A row of the chunks table. -/
structure Chunk where
  chunkId : ChunkId
  documentId : DocumentId
  passage : Passage
  charCount : Nat
  documentTitle : Option String
  embedding : Option EmbeddingVector
  deriving DecidableEq

/-- The buckets that hold files. The two that hold artifacts, JSON that is only ever
read back into the result it was written from, are kept as stores of results. -/
inductive Bucket where
  | quarantine | raw
  deriving DecidableEq

inductive AuditEventType where
  | documentQuarantined | validationPassed | documentPromoted | documentRejected
  | documentSuperseded | documentDeleted | documentRestored | documentReclassified
  | extractionCompleted | extractionFailed
  | normalizationCompleted | normalizationFailed | chunkingCompleted | chunkingFailed
  | embeddingCompleted | embeddingFailed | embeddingSkipped
  deriving DecidableEq

structure World where
  now : Nat
  documents : Documents
  chunks : List Chunk
  jobs : Jobs
  objects : Bucket → ObjectKey → Option Bytes
  extracted : ObjectKey → Option ExtractionResult
  normalized : ObjectKey → Option NormalizationResult
  audit : List (DocumentId × AuditEventType)
  nextId : Nat

/-- The exceptions the stages tell apart. -/
inductive Exn where
  | integrityError
  | staleDataError
  | valueError (message : String)
  | extractionError (message : String)
  | other (message : String)
  deriving DecidableEq

def Exn.message : Exn → String
  | integrityError => "IntegrityError"
  | staleDataError => "StaleDataError"
  | valueError m | extractionError m | other m => m

/-- The parts of the stages that are given to their constructors. -/
structure ValidationResult where
  isValid : Bool
  sha256 : Sha256
  pageCount : Option Nat
  rejectionReason : Option String

structure EmbeddingResult where
  modelName : String
  dimensions : Nat
  vectors : List EmbeddingVector

structure Services where
  validateDocument : Bytes → String → ValidationResult
  extract : DocumentId → Bytes → String → Except Exn ExtractionResult
  normalize : ExtractionResult → NormalizationResult
  chunk : NormalizationResult → List Passage
  embedDocument : DocumentId → List String → Except Exn EmbeddingResult
  isSpace : Char → Bool
  isDigit : Char → Bool
  embeddingSkipNonEnglish : Bool
  embeddingMinProseRatio : Rat

inductive Op where
  | getById (id : DocumentId)
  | getByChecksum (sha256 : Sha256)
  | create (doc : Document)
  | updateDocument (doc : Document)
  | setClassification (id : DocumentId) (c : Classification)
  | softDelete (id : DocumentId)
  | restore (id : DocumentId)
  | getObject (bucket : Bucket) (key : ObjectKey)
  | putObject (bucket : Bucket) (key : ObjectKey) (data : Bytes)
  | copyObject (source : Bucket) (sourceKey : ObjectKey) (dest : Bucket) (destKey : ObjectKey)
  | objectExists (bucket : Bucket) (key : ObjectKey)
  | deleteObject (bucket : Bucket) (key : ObjectKey)
  | getExtraction (key : ObjectKey)
  | putExtraction (key : ObjectKey) (r : ExtractionResult)
  | getNormalization (key : ObjectKey)
  | putNormalization (key : ObjectKey) (r : NormalizationResult)
  | audit (id : DocumentId) (event : AuditEventType) (allowRepeat : Bool)
  | enqueue (id : DocumentId) (stage : JobStage)
  | persistChunks (id : DocumentId) (passages : List Passage) (title : String)
  | loadChunks (id : DocumentId)
  | embedDocument (id : DocumentId) (texts : List String)
  | writeEmbeddings (vectors : List (ChunkId × EmbeddingVector))

@[reducible] def Op.Resp : Op → Type
  | getById _ | getByChecksum _ => Option Document
  | getObject _ _ => Bytes
  | getExtraction _ => ExtractionResult
  | getNormalization _ => NormalizationResult
  | softDelete _ | restore _ | objectExists _ _ | deleteObject _ _ => Bool
  | loadChunks _ => List Chunk
  | embedDocument _ _ => EmbeddingResult
  | _ => Unit

/-- What the environment does to an operation. A silent failure is one the storage
client swallows. -/
inductive Luck where
  | fine
  | fails (message : String)
  | silent
  deriving DecidableEq, Inhabited

namespace World

def empty : World where
  now := 0
  documents := ⟨[], List.nodup_nil, by simp [UniqueActive]⟩
  chunks := []
  jobs := []
  objects _ _ := none
  extracted _ := none
  normalized _ := none
  audit := []
  nextId := 0

def doc (w : World) (id : DocumentId) : Option Document := w.documents.get id

/-- The chunks of a document, `ORDER BY chunk_index`. -/
def chunksOf (w : World) (id : DocumentId) : List Chunk :=
  (w.chunks.filter (fun c => c.documentId = id)).insertionSort
    (fun a b => a.passage.index ≤ b.passage.index)

def setObject (w : World) (b : Bucket) (k : ObjectKey) (v : Option Bytes) : World :=
  { w with objects := Function.update w.objects b (Function.update (w.objects b) k v) }

/-- A write the index may refuse, in a transaction of its own. -/
def commit (w : World) (t : Option Documents) : Except Exn Unit × World :=
  match t with
  | none => (.error .integrityError, w)
  | some t => (.ok (), { w with documents := t })

def newChunks (w : World) (id : DocumentId) (passages : List Passage) (title : String) :
    List Chunk :=
  passages.mapIdx fun i p =>
    { chunkId := w.nextId + i, documentId := id, passage := p, charCount := p.text.length,
      documentTitle := some title, embedding := none }

/-- `uq_document_chunks_position`. -/
def positions (passages : List Passage) : List (String × Nat) :=
  passages.map (fun p => (p.scale, p.index))

def persistChunks (w : World) (id : DocumentId) (passages : List Passage) (title : String) :
    Except Exn Unit × World :=
  if (positions passages).Nodup then
    (.ok (), { w with
      chunks := w.chunks.filter (fun c => c.documentId ≠ id) ++ w.newChunks id passages title
      nextId := w.nextId + passages.length })
  else (.error .integrityError, w)

/-- The vectors go to the rows they were read from; an update that misses one of them
rolls all of them back. -/
def writeEmbeddings (w : World) (vectors : List (ChunkId × EmbeddingVector)) :
    Except Exn Unit × World :=
  if ∀ v ∈ vectors, ∃ c ∈ w.chunks, c.chunkId = v.1 then
    (.ok (), { w with
      chunks := w.chunks.map fun c =>
        match Table.get vectors c.chunkId with
        | none => c
        | some v => { c with embedding := some v } })
  else (.error .staleDataError, w)

/-- Best effort, and once for each document and event unless repeats are allowed. -/
def auditEvent (w : World) (id : DocumentId) (event : AuditEventType) (allowRepeat : Bool) :
    World :=
  if !allowRepeat && w.audit.contains (id, event) then w
  else { w with audit := w.audit ++ [(id, event)] }

def enqueue (w : World) (id : DocumentId) (stage : JobStage) : World :=
  { w with jobs := w.jobs ++ [newJob w.nextId id stage w.now], nextId := w.nextId + 1 }

def softDelete (w : World) (id : DocumentId) : Bool × World :=
  match w.doc id with
  | none => (false, w)
  | some d =>
    if d.deletedAt = none && d.purgedAt = none then
      match w.documents.modify id (fun r => { r with deletedAt := some w.now }) with
      | none => (false, w)
      | some t => (true, { w with documents := t })
    else (false, w)

def restore (w : World) (id : DocumentId) : Bool × World :=
  match w.doc id with
  | none => (false, w)
  | some d =>
    if d.deletedAt ≠ none && d.purgedAt = none then
      match w.documents.modify id (fun r => { r with deletedAt := none }) with
      | none => (false, w)
      | some t => (true, { w with documents := t })
    else (false, w)

def setClassification (w : World) (id : DocumentId) (c : Classification) : World :=
  match w.documents.modify id (fun r => { r with classification := some c }) with
  | none => w
  | some t => { w with documents := t }

end World

def notFound : Exn := .other "Object not found"

/-- What a read of a store answers. -/
def found {β : Type} : Luck → Option β → Except Exn β
  | .fails m, _ => .error (.other m)
  | _, none => .error notFound
  | _, some v => .ok v

/-- What a call that may fail outright does. -/
def called : Luck → World → World → Except Exn Unit × World
  | .fails m, w, _ => (.error (.other m), w)
  | _, _, w => (.ok (), w)

open World in
def effect (sv : Services) : Luck → (op : Op) → World → Except Exn op.Resp × World
  | _, .getById id, w => (.ok (w.doc id), w)
  | _, .getByChecksum sha256, w => (.ok (w.documents.getByChecksum sha256), w)
  | _, .create doc, w => w.commit (w.documents.insert doc.created)
  | _, .updateDocument doc, w => w.commit (w.documents.updateDocument doc)
  | _, .setClassification id c, w => (.ok (), w.setClassification id c)
  | _, .softDelete id, w => (.ok (w.softDelete id).1, (w.softDelete id).2)
  | _, .restore id, w => (.ok (w.restore id).1, (w.restore id).2)
  | c, .getObject b k, w => (found c (w.objects b k), w)
  | c, .putObject b k v, w => called c w (w.setObject b k (some v))
  | c, .copyObject b k b' k', w =>
    match found c (w.objects b k) with
    | .error e => (.error e, w)
    | .ok v => (.ok (), w.setObject b' k' (some v))
  | c, .objectExists b k, w => (.ok (c = .fine && (w.objects b k).isSome), w)
  | c, .deleteObject b k, w =>
    match c with
    | .fine => (.ok (w.objects b k).isSome, w.setObject b k none)
    | .fails m => (.error (.other m), w)
    | .silent => (.ok false, w)
  | c, .getExtraction k, w => (found c (w.extracted k), w)
  | c, .putExtraction k r, w =>
    called c w { w with extracted := Function.update w.extracted k (some r) }
  | c, .getNormalization k, w => (found c (w.normalized k), w)
  | c, .putNormalization k r, w =>
    called c w { w with normalized := Function.update w.normalized k (some r) }
  | c, .audit id event allowRepeat, w =>
    (.ok (), if c = .fine then w.auditEvent id event allowRepeat else w)
  | _, .enqueue id stage, w => (.ok (), w.enqueue id stage)
  | c, .persistChunks id passages title, w =>
    match c with
    | .fails m => (.error (.other m), w)
    | _ => w.persistChunks id passages title
  | _, .loadChunks id, w => (.ok (w.chunksOf id), w)
  | c, .embedDocument id texts, w =>
    match c with
    | .fails m => (.error (.other m), w)
    | _ => (sv.embedDocument id texts, w)
  | c, .writeEmbeddings vectors, w =>
    match c with
    | .fails m => (.error (.other m), w)
    | _ => w.writeEmbeddings vectors

/-- Whatever the environment chooses. -/
def Acts (sv : Services) : Program.Acts Op Op.Resp Exn World :=
  fun op w r w' => ∃ c, effect sv c op w = (r, w')

/-- Storage, database and models all well. -/
def Healthy (sv : Services) : Program.Acts Op Op.Resp Exn World :=
  fun op w r w' => effect sv .fine op w = (r, w')

abbrev Stage (α : Type) := Program Op Op.Resp Exn α

def send (op : Op) : Stage op.Resp := Program.perform op

namespace Op

/-- The row of the documents table that an operation writes. -/
def row : Op → Option DocumentId
  | create doc | updateDocument doc => some doc.id
  | setClassification id _ | softDelete id | restore id => some id
  | _ => none

def writesChunks : Op → Bool
  | persistChunks _ _ _ | writeEmbeddings _ => true
  | _ => false

def writesJobs : Op → Bool
  | enqueue _ _ => true
  | _ => false

def writesStores : Op → Bool
  | putObject _ _ _ | copyObject _ _ _ _ | deleteObject _ _ | putExtraction _ _
  | putNormalization _ _ => true
  | _ => false

end Op

namespace Documents

/-- An update of a row that is there writes it back over what the row holds now. -/
theorem updateDocument_get {t t' : Documents} {doc row : Document}
    (h : t.updateDocument doc = some t') (hr : t.get doc.id = some row) :
    t'.get doc.id = some (doc.writeBack row) := by
  rw [updateDocument, hr, Option.isSome_some, if_pos rfl] at h
  rw [modify_get_self h hr, ← get_id hr]
  rfl

theorem updateDocument_refused {t : Documents} {doc row e : Document}
    (hr : t.get doc.id = some row) (ha : doc.active = true) (he : e ∈ t.rows)
    (hid : e.id ≠ doc.id) (hea : e.active = true) (hne : doc.checksum ≠ none)
    (hc : e.checksum = doc.checksum) : t.updateDocument doc = none := by
  rw [updateDocument, hr, Option.isSome_some, if_pos rfl]
  exact modify_refused hr ha he hid hea hne hc

theorem updateDocument_get_other {t t' : Documents} {doc : Document} {k : DocumentId}
    (h : t.updateDocument doc = some t') (hk : k ≠ doc.id) : t'.get k = t.get k := by
  unfold updateDocument at h
  split at h
  · exact modify_get_other h hk
  · rw [insert_get h, Document.created, if_neg (fun he => hk he.symm), Option.or_none]

/-- What an update says in its row, whether the row was there or not. -/
theorem updateDocument_get_eq {t t' : Documents} {doc r : Document}
    (h : t.updateDocument doc = some t') (hr : t'.get doc.id = some r) :
    r.status = doc.status ∧ r.checksum = doc.checksum ∧ r.rawPath = doc.rawPath := by
  cases hrow : t.get doc.id with
  | some row =>
    rw [updateDocument_get h hrow] at hr
    obtain rfl := Option.some.inj hr
    exact ⟨rfl, rfl, rfl⟩
  | none =>
    rw [updateDocument, hrow, Option.isSome_none, if_neg Bool.false_ne_true] at h
    rw [insert_get h, hrow, Option.none_or, Document.created, if_pos rfl] at hr
    obtain rfl := Option.some.inj hr
    exact ⟨rfl, rfl, rfl⟩

theorem insert_get_eq {t t' : Documents} {doc r : Document} (h : t.insert doc = some t')
    (hr : t'.get doc.id = some r) : r = doc := by
  rw [insert_get h, insert_fresh h, Option.none_or, if_pos rfl] at hr
  exact (Option.some.inj hr).symm

/-- A row that is there is refused only for the hash another active row has. -/
theorem updateDocument_eq_none {t : Documents} {doc row : Document}
    (h : t.updateDocument doc = none) (hr : t.get doc.id = some row) :
    doc.active = true ∧ ∃ e ∈ t.rows, e.id ≠ doc.id ∧ e.active = true ∧
      doc.checksum ≠ none ∧ e.checksum = doc.checksum := by
  rw [updateDocument, hr, Option.isSome_some, if_pos rfl] at h
  exact modify_eq_none hr h

end Documents

section Frame

variable {sv : Services} {c : Luck} {op : Op} {w : World}

theorem called_snd (c : Luck) (w w' : World) : (called c w w').2 = w ∨ (called c w w').2 = w' := by
  cases c with
  | fails m => exact .inl rfl
  | fine | silent => exact .inr rfl

theorem effect_documents (h : op.row = none) :
    (effect sv c op w).2.documents = w.documents := by
  cases op
  case create | updateDocument | setClassification | softDelete | restore => cases h
  all_goals simp only [effect]
  case putObject | putExtraction | putNormalization =>
    rcases called_snd c w _ with h | h <;> rw [h] <;> rfl
  case copyObject | deleteObject | embedDocument => split <;> rfl
  case audit =>
    rw [World.auditEvent]
    split
    · split <;> rfl
    · rfl
  case persistChunks =>
    rw [World.persistChunks]
    split
    · rfl
    · split <;> rfl
  case writeEmbeddings =>
    rw [World.writeEmbeddings]
    split
    · rfl
    · split <;> rfl
  all_goals rfl

theorem commit_snd (w : World) (t : Option Documents) :
    ∃ t', (w.commit t).2 = { w with documents := t' } := by
  cases t with
  | none => exact ⟨w.documents, rfl⟩
  | some t => exact ⟨t, rfl⟩

theorem setClassification_eq (w : World) (id : DocumentId) (tier : Classification) :
    ∃ t', w.setClassification id tier = { w with documents := t' } := by
  unfold World.setClassification
  split
  · exact ⟨w.documents, rfl⟩
  · exact ⟨_, rfl⟩

theorem softDelete_snd (w : World) (id : DocumentId) :
    ∃ t', (w.softDelete id).2 = { w with documents := t' } := by
  unfold World.softDelete
  split
  · exact ⟨w.documents, rfl⟩
  · split
    · split
      · exact ⟨w.documents, rfl⟩
      · exact ⟨_, rfl⟩
    · exact ⟨w.documents, rfl⟩

theorem restore_snd (w : World) (id : DocumentId) :
    ∃ t', (w.restore id).2 = { w with documents := t' } := by
  unfold World.restore
  split
  · exact ⟨w.documents, rfl⟩
  · split
    · split
      · exact ⟨w.documents, rfl⟩
      · exact ⟨_, rfl⟩
    · exact ⟨w.documents, rfl⟩

/-- An operation that writes a row writes nothing else. -/
theorem effect_of_row (h : op.row ≠ none) :
    ∃ t', (effect sv c op w).2 = { w with documents := t' } := by
  cases op
  case create doc => exact commit_snd w _
  case updateDocument doc => exact commit_snd w _
  case setClassification id tier => exact setClassification_eq w id tier
  case softDelete id => exact softDelete_snd w id
  case restore id => exact restore_snd w id
  all_goals exact absurd rfl h

theorem acts_of_row {r : Except Exn op.Resp} {w' : World} (h : Acts sv op w r w')
    (hr : op.row ≠ none) : ∃ t', w' = { w with documents := t' } := by
  obtain ⟨c, hc⟩ := h
  have hrow : ∃ t', (effect sv c op w).2 = { w with documents := t' } := effect_of_row hr
  obtain ⟨t', ht⟩ := hrow
  rw [hc] at ht
  exact ⟨t', ht⟩

theorem documents_of_acts {r : Except Exn op.Resp} {w' : World} (h : Acts sv op w r w')
    (hr : op.row = none) : w'.documents = w.documents := by
  obtain ⟨c, hc⟩ := h
  have hd : (effect sv c op w).2.documents = w.documents := effect_documents hr
  rw [hc] at hd
  exact hd

/-- Only queueing a job writes the jobs table. -/
theorem effect_jobs (h : ∀ id stage, op ≠ .enqueue id stage) :
    (effect sv c op w).2.jobs = w.jobs ∧ w.nextId ≤ (effect sv c op w).2.nextId := by
  have hsame : ∀ {u : World}, u.jobs = w.jobs → u.nextId = w.nextId →
      u.jobs = w.jobs ∧ w.nextId ≤ u.nextId := fun hj hn => ⟨hj, hn ▸ Nat.le_refl _⟩
  by_cases hr : op.row = none
  · cases op
    case create | updateDocument | setClassification | softDelete | restore => cases hr
    case enqueue id stage => exact absurd rfl (h id stage)
    all_goals simp only [effect]
    case putObject | putExtraction | putNormalization =>
      rcases called_snd c w _ with he | he <;> rw [he] <;> exact hsame rfl rfl
    case copyObject | deleteObject | embedDocument => split <;> exact hsame rfl rfl
    case audit =>
      rw [World.auditEvent]
      split
      · split <;> exact hsame rfl rfl
      · exact hsame rfl rfl
    case persistChunks =>
      rw [World.persistChunks]
      split
      · exact hsame rfl rfl
      · split
        · exact ⟨rfl, Nat.le_add_right _ _⟩
        · exact hsame rfl rfl
    case writeEmbeddings =>
      rw [World.writeEmbeddings]
      split
      · exact hsame rfl rfl
      · split <;> exact hsame rfl rfl
    all_goals exact ⟨trivial, Nat.le_refl _⟩
  · have hrow : ∃ t, (effect sv c op w).2 = { w with documents := t } := effect_of_row hr
    obtain ⟨t, ht⟩ := hrow
    rw [ht]
    exact hsame rfl rfl

theorem commit_doc {t : Option Documents} {id : DocumentId}
    (ht : ∀ t', t = some t' → t'.get id = w.documents.get id) :
    (w.commit t).2.doc id = w.doc id := by
  cases t with
  | none => rfl
  | some t' => exact ht t' rfl

theorem setClassification_doc_other {id k : DocumentId} {tier : Classification} (hk : k ≠ id) :
    (w.setClassification id tier).doc k = w.doc k := by
  unfold World.setClassification
  split
  · rfl
  · rename_i t ht
    exact Documents.modify_get_other ht hk

theorem softDelete_doc_other {id k : DocumentId} (hk : k ≠ id) :
    (w.softDelete id).2.doc k = w.doc k := by
  unfold World.softDelete
  split
  · rfl
  · split
    · split
      · rfl
      · rename_i t ht
        exact Documents.modify_get_other ht hk
    · rfl

theorem restore_doc_other {id k : DocumentId} (hk : k ≠ id) :
    (w.restore id).2.doc k = w.doc k := by
  unfold World.restore
  split
  · rfl
  · split
    · split
      · rfl
      · rename_i t ht
        exact Documents.modify_get_other ht hk
    · rfl

theorem setClassification_get {id : DocumentId} {tier : Classification} {k : DocumentId}
    {r : Document} (h : (w.setClassification id tier).doc k = some r) :
    ∃ q, w.doc k = some q ∧ r.status = q.status ∧ r.checksum = q.checksum ∧
      r.rawPath = q.rawPath := by
  unfold World.setClassification at h
  split at h
  · exact ⟨r, h, rfl, rfl, rfl⟩
  · rename_i t ht
    have h' : t.get k = some r := h
    rw [Documents.modify_get ht] at h'
    obtain ⟨q, hq, rfl⟩ := Option.map_eq_some_iff.mp h'
    refine ⟨q, hq, ?_⟩
    split <;> exact ⟨rfl, rfl, rfl⟩

theorem effect_doc {id : DocumentId} (h : op.row ≠ some id) :
    (effect sv c op w).2.doc id = w.doc id := by
  by_cases hn : op.row = none
  · rw [World.doc, World.doc, effect_documents hn]
  · cases op
    case create doc =>
      have hk : ¬ doc.id = id := fun he => h (congrArg some he)
      refine commit_doc fun t' ht => ?_
      rw [Documents.insert_get ht, Document.created, if_neg hk, Option.or_none]
    case updateDocument doc =>
      have hk : id ≠ doc.id := fun he => h (congrArg some he.symm)
      exact commit_doc fun t' ht => Documents.updateDocument_get_other ht hk
    case setClassification k tier =>
      exact setClassification_doc_other fun he => h (congrArg some he.symm)
    case softDelete k => exact softDelete_doc_other fun he => h (congrArg some he.symm)
    case restore k => exact restore_doc_other fun he => h (congrArg some he.symm)
    all_goals exact absurd rfl hn

theorem doc_of_acts {r : Except Exn op.Resp} {w' : World} (h : Acts sv op w r w')
    {id : DocumentId} (hr : op.row ≠ some id) : w'.doc id = w.doc id := by
  obtain ⟨c, hc⟩ := h
  have hd : (effect sv c op w).2.doc id = w.doc id := effect_doc hr
  rw [hc] at hd
  exact hd

/-- A stage that does not write a row leaves it as it is. -/
theorem doc_of_ends {α : Type} {p : Stage α} {w' : World} {o : Except Exn α}
    (h : Program.Ends (Acts sv) p w o w') {id : DocumentId}
    (hp : p.Sends (fun op => op.row ≠ some id) (fun _ _ => True)) : w'.doc id = w.doc id :=
  h.invariant (I := fun (u : World) => u.doc id = w.doc id) hp
    (fun _ _ _ _ hop ha hs => (doc_of_acts ha hop).trans hs) rfl

end Frame

section Rules

variable {α β : Type} {sv : Services} {w w' : World} {o : Except Exn β}

theorem healthy_acts {op : Op} {r : Except Exn op.Resp} (h : Healthy sv op w r w') :
    Acts sv op w r w' := ⟨.fine, h⟩

theorem exists_healthy (op : Op) (w : World) : ∃ r w', Healthy sv op w r w' := ⟨_, _, rfl⟩

open Program

theorem ends_send_bind {act : Program.Acts Op Op.Resp Exn World} {op : Op}
    {k : op.Resp → Stage β} :
    Ends act (send op >>= k) w o w' ↔
      (∃ e, act op w (.error e) w' ∧ o = .error e) ∨
        ∃ a u, act op w (.ok a) u ∧ Ends act (k a) u o w' := by
  rw [send, ends_bind]
  simp only [ends_perform]

theorem ends_attempt_send_bind {act : Program.Acts Op Op.Resp Exn World} {op : Op}
    {k : Except Exn op.Resp → Stage β} :
    Ends act (attempt (send op) >>= k) w o w' ↔
      ∃ r u, act op w r u ∧ Ends act (k r) u o w' := by
  rw [send, ends_attempt_bind]
  simp only [ends_perform]

/-- A run cut off at an operation or after it. -/
theorem visits_send_bind {act : Program.Acts Op Op.Resp Exn World} {op : Op}
    {k : op.Resp → Stage β} (h : Visits act (send op >>= k) w w') :
    w' = w ∨ (∃ e, act op w (.error e) w') ∨ ∃ a u, act op w (.ok a) u ∧ Visits act (k a) u w' := by
  rcases visits_bind h with h | ⟨a, u, hu, h⟩
  · rcases visits_perform h with rfl | ⟨r, hr⟩
    · exact .inl rfl
    · cases r with
      | error e => exact .inr (.inl ⟨e, hr⟩)
      | ok a => exact .inr (.inr ⟨a, w', hr, .start _ _⟩)
  · exact .inr (.inr ⟨a, u, ends_perform.mp hu, h⟩)

theorem visits_attempt_send_bind {act : Program.Acts Op Op.Resp Exn World} {op : Op}
    {k : Except Exn op.Resp → Stage β} (h : Visits act (attempt (send op) >>= k) w w') :
    w' = w ∨ ∃ r u, act op w r u ∧ Visits act (k r) u w' := by
  rcases visits_attempt_bind h with h | ⟨r, u, hu, h⟩
  · rcases visits_perform h with rfl | ⟨r, hr⟩
    · exact .inl rfl
    · exact .inr ⟨r, w', hr, .start _ _⟩
  · exact .inr ⟨r, u, ends_perform.mp hu, h⟩

theorem acts_getById {id : DocumentId} {r : Except Exn (Option Document)} :
    Acts sv (.getById id) w r w' ↔ r = .ok (w.doc id) ∧ w' = w := by
  simp only [Acts, effect, Prod.mk.injEq, exists_const, eq_comm]

theorem acts_getByChecksum {sha256 : Sha256} {r : Except Exn (Option Document)} :
    Acts sv (.getByChecksum sha256) w r w' ↔
      r = .ok (w.documents.getByChecksum sha256) ∧ w' = w := by
  simp only [Acts, effect, Prod.mk.injEq, exists_const, eq_comm]

theorem acts_updateDocument {doc : Document} {r : Except Exn Unit} :
    Acts sv (.updateDocument doc) w r w' ↔
      (w.documents.updateDocument doc = none ∧ r = .error .integrityError ∧ w' = w) ∨
        ∃ t, w.documents.updateDocument doc = some t ∧ r = .ok () ∧
          w' = { w with documents := t } := by
  simp only [Acts, effect, exists_const]
  cases h : w.documents.updateDocument doc with
  | none => simp [World.commit, eq_comm]
  | some t => simp [World.commit, eq_comm]

theorem acts_create {doc : Document} {r : Except Exn Unit} :
    Acts sv (.create doc) w r w' ↔
      (w.documents.insert doc.created = none ∧ r = .error .integrityError ∧ w' = w) ∨
        ∃ t, w.documents.insert doc.created = some t ∧ r = .ok () ∧
          w' = { w with documents := t } := by
  simp only [Acts, effect, exists_const]
  cases h : w.documents.insert doc.created with
  | none => simp [World.commit, eq_comm]
  | some t => simp [World.commit, eq_comm]

theorem acts_setClassification {id : DocumentId} {tier : Classification} {r : Except Exn Unit} :
    Acts sv (.setClassification id tier) w r w' ↔
      r = .ok () ∧ w' = w.setClassification id tier := by
  simp only [Acts, effect, Prod.mk.injEq, exists_const, eq_comm]

theorem acts_enqueue {id : DocumentId} {stage : JobStage} {r : Except Exn Unit} :
    Acts sv (.enqueue id stage) w r w' ↔ r = .ok () ∧ w' = w.enqueue id stage := by
  simp only [Acts, effect, Prod.mk.injEq, exists_const, eq_comm]

theorem auditEvent_eq (w : World) (id : DocumentId) (event : AuditEventType) (again : Bool) :
    ∃ a, w.auditEvent id event again = { w with audit := a } := by
  unfold World.auditEvent
  split
  · exact ⟨w.audit, rfl⟩
  · exact ⟨_, rfl⟩

/-- An audit write never stops a stage. -/
theorem acts_audit {id : DocumentId} {event : AuditEventType} {again : Bool}
    {r : Except Exn Unit} (h : Acts sv (.audit id event again) w r w') :
    r = .ok () ∧ ∃ a, w' = { w with audit := a } := by
  obtain ⟨c, hc⟩ := h
  simp only [effect, Prod.mk.injEq] at hc
  refine ⟨hc.1.symm, ?_⟩
  rw [← hc.2]
  split
  · exact auditEvent_eq w id event again
  · exact ⟨w.audit, rfl⟩

/-- An answer of a read is what the store holds, or an exception. -/
theorem acts_getObject {b : Bucket} {k : ObjectKey} {r : Except Exn Bytes}
    (h : Acts sv (.getObject b k) w r w') :
    w' = w ∧ ((∃ e, r = .error e) ∨ ∃ v, w.objects b k = some v ∧ r = .ok v) := by
  obtain ⟨c, hc⟩ := h
  simp only [effect, Prod.mk.injEq] at hc
  refine ⟨hc.2.symm, ?_⟩
  cases ho : w.objects b k with
  | none => cases c <;> exact .inl ⟨_, by rw [← hc.1, ho]; rfl⟩
  | some v =>
    cases c with
    | fails m => exact .inl ⟨_, by rw [← hc.1, ho]; rfl⟩
    | fine | silent => exact .inr ⟨v, rfl, by rw [← hc.1, ho]; rfl⟩

theorem ends_getById_bind {id : DocumentId} {k : Option Document → Stage β} :
    Ends (Acts sv) (send (.getById id) >>= k) w o w' ↔ Ends (Acts sv) (k (w.doc id)) w o w' := by
  rw [ends_send_bind]
  simp [acts_getById]

theorem ends_getByChecksum_bind {sha256 : Sha256} {k : Option Document → Stage β} :
    Ends (Acts sv) (send (.getByChecksum sha256) >>= k) w o w' ↔
      Ends (Acts sv) (k (w.documents.getByChecksum sha256)) w o w' := by
  rw [ends_send_bind]
  simp [acts_getByChecksum]

theorem ends_setClassification_bind {id : DocumentId} {tier : Classification}
    {k : Unit → Stage β} :
    Ends (Acts sv) (send (.setClassification id tier) >>= k) w o w' ↔
      Ends (Acts sv) (k ()) (w.setClassification id tier) o w' := by
  rw [ends_send_bind]
  simp only [acts_setClassification]
  constructor
  · rintro (⟨e, ⟨he, -⟩, -⟩ | ⟨a, u, ⟨-, rfl⟩, h⟩)
    · cases he
    · exact h
  · exact fun h => .inr ⟨(), _, ⟨trivial, rfl⟩, h⟩

theorem ends_enqueue_bind {id : DocumentId} {stage : JobStage} {k : Unit → Stage β} :
    Ends (Acts sv) (send (.enqueue id stage) >>= k) w o w' ↔
      Ends (Acts sv) (k ()) (w.enqueue id stage) o w' := by
  rw [ends_send_bind]
  simp only [acts_enqueue]
  constructor
  · rintro (⟨e, ⟨he, -⟩, -⟩ | ⟨a, u, ⟨-, rfl⟩, h⟩)
    · cases he
    · exact h
  · exact fun h => .inr ⟨(), _, ⟨trivial, rfl⟩, h⟩

theorem ends_audit_bind {id : DocumentId} {event : AuditEventType} {again : Bool}
    {k : Unit → Stage β} (h : Ends (Acts sv) (send (.audit id event again) >>= k) w o w') :
    ∃ a, Ends (Acts sv) (k ()) { w with audit := a } o w' := by
  rcases ends_send_bind.mp h with ⟨e, he, -⟩ | ⟨u, v, hv, hk⟩
  · cases (acts_audit he).1
  · obtain ⟨-, a, rfl⟩ := acts_audit hv
    exact ⟨a, hk⟩

theorem ends_updateDocument_bind {doc : Document} {k : Unit → Stage β} :
    Ends (Acts sv) (send (.updateDocument doc) >>= k) w o w' ↔
      (w.documents.updateDocument doc = none ∧ o = .error .integrityError ∧ w' = w) ∨
        ∃ t, w.documents.updateDocument doc = some t ∧
          Ends (Acts sv) (k ()) { w with documents := t } o w' := by
  rw [ends_send_bind]
  simp only [acts_updateDocument]
  constructor
  · rintro (⟨e, (⟨hn, he, rfl⟩ | ⟨t, -, he, -⟩), rfl⟩ | ⟨a, u, (⟨-, he, -⟩ | ⟨t, ht, -, rfl⟩), h⟩)
    · exact .inl ⟨hn, by rw [Except.error.inj he], rfl⟩
    · cases he
    · cases he
    · exact .inr ⟨t, ht, h⟩
  · rintro (⟨hn, rfl, rfl⟩ | ⟨t, ht, h⟩)
    · exact .inl ⟨.integrityError, .inl ⟨hn, rfl, rfl⟩, rfl⟩
    · exact .inr ⟨(), { w with documents := t }, .inr ⟨t, ht, trivial, rfl⟩, h⟩

/-- What an update leaves in its row at the end, if nothing after it writes the row. -/
theorem writeBack_of_ends {doc row : Document} {k : Unit → Stage β}
    (h : Ends (Acts sv) (send (.updateDocument doc) >>= k) w o w')
    (hr : w.doc doc.id = some row)
    (hk : (k ()).Sends (fun op => op.row ≠ some doc.id) (fun _ _ => True)) :
    (w.documents.updateDocument doc = none ∧ o = .error .integrityError ∧ w' = w) ∨
      w'.doc doc.id = some (doc.writeBack row) := by
  rcases ends_updateDocument_bind.mp h with hn | ⟨t, ht, h⟩
  · exact .inl hn
  · exact .inr ((doc_of_ends h hk).trans (Documents.updateDocument_get ht hr))

theorem doc_of_visits {p : Stage β} (h : Visits (Acts sv) p w w') {id : DocumentId}
    (hp : p.Sends (fun op => op.row ≠ some id) (fun _ _ => True)) : w'.doc id = w.doc id :=
  h.invariant (I := fun (u : World) => u.doc id = w.doc id) hp
    (fun _ _ _ _ hop ha hs => (doc_of_acts ha hop).trans hs) rfl

/-- A look at the database changes nothing, so a run cut off at it is one cut off after. -/
theorem visits_getById_bind {id : DocumentId} {k : Option Document → Stage β}
    (h : Visits (Acts sv) (send (.getById id) >>= k) w w') :
    Visits (Acts sv) (k (w.doc id)) w w' := by
  rcases visits_bind h with h | ⟨a, u, hu, h⟩
  · rcases visits_perform h with rfl | ⟨r, hr⟩
    · exact .start _ _
    · obtain ⟨-, rfl⟩ := acts_getById.mp hr
      exact .start _ _
  · obtain ⟨ha, rfl⟩ := acts_getById.mp (ends_perform.mp hu)
    cases ha
    exact h

theorem visits_getByChecksum_bind {sha256 : Sha256} {k : Option Document → Stage β}
    (h : Visits (Acts sv) (send (.getByChecksum sha256) >>= k) w w') :
    Visits (Acts sv) (k (w.documents.getByChecksum sha256)) w w' := by
  rcases visits_bind h with h | ⟨a, u, hu, h⟩
  · rcases visits_perform h with rfl | ⟨r, hr⟩
    · exact .start _ _
    · obtain ⟨-, rfl⟩ := acts_getByChecksum.mp hr
      exact .start _ _
  · obtain ⟨ha, rfl⟩ := acts_getByChecksum.mp (ends_perform.mp hu)
    cases ha
    exact h

theorem visits_attempt_getObject_bind {b : Bucket} {key : ObjectKey}
    {k : Except Exn Bytes → Stage β}
    (h : Visits (Acts sv) (attempt (send (.getObject b key)) >>= k) w w') :
    (∃ e, Visits (Acts sv) (k (.error e)) w w') ∨
      ∃ v, w.objects b key = some v ∧ Visits (Acts sv) (k (.ok v)) w w' := by
  rcases visits_attempt_bind h with h | ⟨r, u, hu, h⟩
  · rcases visits_perform h with rfl | ⟨r, hr⟩
    · exact .inl ⟨notFound, .start _ _⟩
    · obtain ⟨rfl, -⟩ := acts_getObject hr
      exact .inl ⟨notFound, .start _ _⟩
  · obtain ⟨rfl, ⟨e, rfl⟩ | ⟨v, hv, rfl⟩⟩ := acts_getObject (ends_perform.mp hu)
    · exact .inl ⟨e, h⟩
    · exact .inr ⟨v, hv, h⟩

theorem writeBack_of_visits {doc row : Document} {k : Unit → Stage β}
    (h : Visits (Acts sv) (send (.updateDocument doc) >>= k) w w')
    (hr : w.doc doc.id = some row)
    (hk : (k ()).Sends (fun op => op.row ≠ some doc.id) (fun _ _ => True)) :
    w'.doc doc.id = some row ∨ w'.doc doc.id = some (doc.writeBack row) := by
  have hup : ∀ {r : Except Exn Unit} {u : World}, Acts sv (.updateDocument doc) w r u →
      u.doc doc.id = some row ∨ u.doc doc.id = some (doc.writeBack row) := by
    intro r u hu
    rcases acts_updateDocument.mp hu with ⟨-, -, rfl⟩ | ⟨t, ht, -, rfl⟩
    · exact .inl hr
    · exact .inr (Documents.updateDocument_get ht hr)
  rcases visits_bind h with h | ⟨_, u, hu, h⟩
  · rcases visits_perform h with rfl | ⟨r, hu⟩
    · exact .inl hr
    · exact hup hu
  · rw [doc_of_visits h hk]
    exact hup (ends_perform.mp hu)

end Rules

end KnowledgeBase
