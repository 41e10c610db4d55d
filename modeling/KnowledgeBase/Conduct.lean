import KnowledgeBase.Workers

/-! How the programs of uploads and stages conduct themselves towards the row of their
document, its jobs and its passages: one account of each program, whatever the answers
it gets and whoever runs beside it. -/

namespace KnowledgeBase

open Program

/-- The job a document with a hand-over status waits for. -/
def nextStage : DocumentStatus → Option JobStage
  | .quarantined => some .scan
  | .validated => some .extract
  | .extracted => some .normalize
  | .awaitingClassification => some .chunk
  | .chunked => some .embed
  | _ => none

/-- How far a program has come with the vectors: it has read passages, or written a
vector to each. -/
inductive Vectors where
  | absent
  | loaded (ids : List ChunkId)
  | written
  deriving DecidableEq

/-- The copy of the row a program holds, the job it owes and the vectors it has. -/
structure Conduct where
  copy : Option Document
  owed : Option JobStage
  vectors : Vectors

namespace Conduct

def fresh : Conduct := { copy := none, owed := none, vectors := .absent }

def holding (row : Document) : Conduct := { copy := some row, owed := none, vectors := .absent }

/-- The end of a program that owes nothing and has not kept LIVE back. -/
def Settled (x : Conduct) : Prop := x.owed = none ∧ x.vectors ≠ .written

end Conduct

/-- What a stage writes back is its copy, with the columns of versions as they were. -/
structure SameVersion (d : DocumentId) (row doc : Document) : Prop where
  id : doc.id = d
  version : doc.version = row.version
  supersedesId : doc.supersedesId = row.supersedesId

/-- An answer some state could give. -/
def Possible (sv : Services) (op : Op) (r : Except Exn op.Resp) : Prop :=
  ∃ w w', Acts sv op w r w'

/-- A program for one document writes no other row but a tier, and its own only from the
copy it loaded, once. Having committed a hand-over status it owes the job of the next stage;
LIVE it sets right after the vectors are written and at no other time. -/
def conduct (sv : Services) (d : DocumentId) : Discipline Op Op.Resp Exn Conduct where
  allowed x op :=
    match op with
    | .create doc => doc.id = d ∧ doc.status ≠ .live ∧ x.vectors ≠ .written
    | .updateDocument doc => (∃ row, x.copy = some row ∧ SameVersion d row doc) ∧
        doc.status ≠ .superseded ∧ (doc.status = .live ↔ x.vectors = .written)
    | .setClassification id _ => id ≠ d ∧ x.vectors ≠ .written
    | .getById id => (id = d → x.copy = none) ∧ x.vectors ≠ .written
    | .softDelete _ | .restore _ => False
    | _ => x.vectors ≠ .written
  expected _ op r := Possible sv op r
  next x op r :=
    match op, r with
    | .getById id, .ok (some row) => if id = d then { x with copy := some row } else x
    | .create doc, .ok _ => { x with owed := nextStage doc.status }
    | .updateDocument doc, .ok _ => { x with owed := nextStage doc.status, vectors := .absent }
    | .updateDocument _, .error _ => { x with vectors := .absent }
    | .enqueue id stage, .ok _ =>
      if id = d ∧ x.owed = some stage then { x with owed := none } else x
    | .loadChunks id, .ok chunks =>
      if id = d then { x with vectors := .loaded (chunks.map Chunk.chunkId) } else x
    | .writeEmbeddings vs, .ok _ =>
      if x.vectors = .loaded (vs.map Prod.fst) ∧ vs ≠ [] then { x with vectors := .written }
      else x
    | _, _ => x

def Conducts (sv : Services) (d : DocumentId) {α : Type} (x : Conduct) (p : Stage α) : Prop :=
  Follows (conduct sv d) (fun y _ => y.Settled) x p

section Rules

variable {α β : Type} {sv : Services} {d : DocumentId} {x : Conduct} {row doc : Document}

theorem possible_getById {id : DocumentId} {r : Except Exn (Option Document)}
    (h : Possible sv (.getById id) r) : ∃ w : World, r = .ok (w.doc id) := by
  obtain ⟨w, w', hw⟩ := h
  exact ⟨w, (acts_getById.mp hw).1⟩

theorem possible_audit {id : DocumentId} {event : AuditEventType} {again : Bool}
    {r : Except Exn Unit} (h : Possible sv (.audit id event again) r) : r = .ok () := by
  obtain ⟨w, w', hw⟩ := h
  exact (acts_audit hw).1

theorem possible_enqueue {id : DocumentId} {stage : JobStage} {r : Except Exn Unit}
    (h : Possible sv (.enqueue id stage) r) : r = .ok () := by
  obtain ⟨w, w', hw⟩ := h
  exact (acts_enqueue.mp hw).1

theorem SameVersion.self (h : row.id = d) : SameVersion d row row := ⟨h, rfl, rfl⟩

/-- An operation that leaves the conduct of the program for `d` as it is. -/
def Neutral (d : DocumentId) : Op → Prop
  | .setClassification id _ => id ≠ d
  | .create _ | .updateDocument _ | .softDelete _ | .restore _ | .getById _ | .enqueue _ _
  | .loadChunks _ | .writeEmbeddings _ => False
  | _ => True

theorem neutral_next {op : Op} (h : Neutral d op) (hx : x.vectors ≠ .written) :
    (conduct sv d).allowed x op ∧ ∀ r, (conduct sv d).next x op r = x := by
  cases op
  case create | updateDocument | softDelete | restore | getById | enqueue | loadChunks
    | writeEmbeddings => exact h.elim
  case setClassification => exact ⟨⟨h, hx⟩, fun _ => rfl⟩
  all_goals exact ⟨hx, fun _ => rfl⟩

theorem conducts_of_neutral {p : Stage α} (hx : x.Settled)
    (hp : p.Sends (Neutral d) (fun _ _ => True)) : Conducts sv d x p :=
  follows_of_sends (hp.mono fun _ hop => neutral_next hop hx.2) fun _ => hx

/-- What runs first leaves the conduct as it is, and may raise. -/
theorem conducts_neutral_bind {p : Stage α} {k : α → Stage β} (hx : x.Settled)
    (hp : p.Sends (Neutral d) (fun _ _ => True)) (hk : ∀ a, Conducts sv d x (k a)) :
    Conducts sv d x (p >>= k) := by
  refine follows_bind (follows_of_sends (hp.mono fun _ hop => neutral_next hop hx.2) ?_)
  intro o
  cases o with
  | ok a => exact hk a
  | error e => exact hx

theorem conducts_audit_bind {id : DocumentId} {event : AuditEventType} {again : Bool}
    {k : Unit → Stage β} (hx : x.vectors ≠ .written) (hk : Conducts sv d x (k ())) :
    Conducts sv d x (send (.audit id event again) >>= k) := by
  refine follows_bind (follows_perform hx fun r hr => ?_)
  obtain rfl := possible_audit hr
  exact hk

/-- The job that is owed is queued. -/
theorem conducts_enqueue_bind {stage : JobStage} {k : Unit → Stage β} {copy : Option Document}
    (hk : Conducts sv d { copy, owed := none, vectors := .absent } (k ())) :
    Conducts sv d { copy, owed := some stage, vectors := .absent }
      (send (.enqueue d stage) >>= k) := by
  refine follows_bind (follows_perform nofun fun r hr => ?_)
  obtain rfl := possible_enqueue hr
  show Follows _ _ (if d = d ∧ some stage = some stage then _ else _) (k ())
  rw [if_pos ⟨rfl, rfl⟩]
  exact hk

/-- The row written back with another status than LIVE. -/
theorem conducts_update_bind (doc : Document) {v : Vectors} {k : Unit → Stage β}
    (hv : SameVersion d row doc) (hs : doc.status ≠ .superseded) (hl : doc.status ≠ .live)
    (hw : v ≠ .written)
    (hk : Conducts sv d { copy := some row, owed := nextStage doc.status, vectors := .absent }
      (k ())) :
    Conducts sv d { copy := some row, owed := none, vectors := v }
      (send (.updateDocument doc) >>= k) := by
  refine follows_bind (follows_perform ⟨⟨row, rfl, hv⟩, hs, ?_⟩ fun r _ => ?_)
  · exact ⟨fun he => absurd he hl, fun he => absurd he hw⟩
  · cases r with
    | ok _ => exact hk
    | error e => exact ⟨rfl, nofun⟩

theorem conducts_getById_bind {k : Option Document → Stage β}
    (hnone : Conducts sv d .fresh (k none))
    (hsome : ∀ row, row.id = d → Conducts sv d (.holding row) (k (some row))) :
    Conducts sv d .fresh (send (.getById d) >>= k) := by
  refine follows_bind (follows_perform ⟨fun _ => rfl, nofun⟩ fun r hr => ?_)
  obtain ⟨w, rfl⟩ := possible_getById hr
  cases hdoc : w.doc d with
  | none => exact hnone
  | some row =>
    show Follows _ _ (if d = d then _ else _) _
    rw [if_pos rfl]
    exact hsome row (Documents.get_id hdoc)

theorem fresh_settled : Conduct.fresh.Settled := ⟨rfl, nofun⟩

theorem holding_settled : (Conduct.holding row).Settled := ⟨rfl, nofun⟩

end Rules

section Stages

variable {sv : Services} {d : DocumentId} {row doc : Document}

theorem receive_conducts (filename : String) (data : Bytes) (request : UploadRequest)
    (mimeType : String) :
    Conducts sv d .fresh (UploadService.receive d filename data request mimeType) := by
  refine conducts_neutral_bind fresh_settled (sends_perform trivial) fun _ => ?_
  refine follows_bind (follows_perform ⟨rfl, nofun, nofun⟩ fun r _ => ?_)
  cases r with
  | ok _ => exact conducts_enqueue_bind (conducts_audit_bind nofun fresh_settled)
  | error e => exact fresh_settled

theorem markFailed_conducts {status : DocumentStatus} {event : AuditEventType}
    {message reason : String} {v : Vectors} (hv : SameVersion d row doc)
    (hs : nextStage status = none) (hne : status ≠ .superseded ∧ status ≠ .live)
    (hw : v ≠ .written) :
    Conducts sv d { copy := some row, owed := none, vectors := v }
      (markFailed doc status event message reason) := by
  refine conducts_update_bind _ ⟨hv.id, hv.version, hv.supersedesId⟩ hne.1 hne.2 hw ?_
  show Conducts sv d { copy := some row, owed := nextStage status, vectors := .absent } _
  rw [hs]
  exact conducts_audit_bind nofun holding_settled

namespace ScanJobHandler

theorem escalate_neutral {canonical : Document} (h : canonical.id ≠ d)
    (incoming : Option Classification) :
    (escalateTierIfStricter canonical incoming).Sends (Neutral d) (fun _ _ => True) := by
  unfold escalateTierIfStricter
  split
  · trivial
  · split
    · refine sends_bind (sends_perform h) fun _ => ?_
      exact sends_bind (sends_perform trivial) fun _ => trivial
    · trivial

theorem moveToRaw_neutral (key rawKey : ObjectKey) :
    (moveToRaw key rawKey).Sends (Neutral d) (fun _ _ => True) := by
  refine sends_bind (sends_perform trivial) fun there => ?_
  cases there
  · refine sends_bind (sends_perform trivial) fun _ => ?_
    exact sends_bind (sends_perform trivial) fun _ => trivial
  · exact sends_bind (sends_perform trivial) fun _ => trivial

theorem reject_conducts (hv : SameVersion d row doc) (v : ValidationResult) :
    Conducts sv d (.holding row) (reject doc v) := by
  refine conducts_update_bind _ ⟨hv.id, hv.version, hv.supersedesId⟩ nofun nofun nofun ?_
  refine conducts_audit_bind nofun ?_
  exact conducts_neutral_bind holding_settled (sends_perform trivial) fun _ => holding_settled

theorem duplicate_conducts (hv : SameVersion d row doc) (key : ObjectKey) (sha256 : Sha256)
    {existing : Document} (hne : existing.id ≠ doc.id) :
    Conducts sv d (.holding row) (duplicate doc key sha256 existing) := by
  refine conducts_neutral_bind holding_settled (escalate_neutral (hv.id ▸ hne) _) fun _ => ?_
  refine conducts_update_bind _ ⟨hv.id, hv.version, hv.supersedesId⟩ nofun nofun nofun ?_
  refine conducts_neutral_bind holding_settled (sends_perform trivial) fun _ => ?_
  exact conducts_audit_bind nofun holding_settled

theorem escalateWinner_neutral (hid : doc.id = d) (canonical : Option Document) :
    (escalateWinner doc canonical).Sends (Neutral d) (fun _ _ => True) := by
  unfold escalateWinner
  split
  · trivial
  · split
    · trivial
    · rename_i c hne
      exact sends_bind (escalate_neutral (hid ▸ hne) _) fun _ => trivial

theorem lostRace_conducts (doc : Document) (hv : SameVersion d row doc) (key : ObjectKey)
    (sha256 : Sha256) : Conducts sv d (.holding row) (lostRace doc key sha256) := by
  refine conducts_update_bind _ ⟨hv.id, hv.version, hv.supersedesId⟩ nofun nofun nofun ?_
  refine conducts_neutral_bind holding_settled (sends_perform trivial) fun _ => ?_
  refine conducts_neutral_bind holding_settled (escalateWinner_neutral hv.id _) fun _ => ?_
  exact conducts_audit_bind nofun holding_settled

theorem handOver_conducts (hid : doc.id = d) (key : ObjectKey) (v : ValidationResult) :
    Conducts sv d { copy := some row, owed := some .extract, vectors := .absent }
      (handOver doc key v) := by
  subst hid
  refine conducts_audit_bind nofun (conducts_audit_bind nofun ?_)
  exact conducts_enqueue_bind holding_settled

theorem promote_conducts (hv : SameVersion d row doc) (key : ObjectKey)
    (v : ValidationResult) : Conducts sv d (.holding row) (promote doc key v) := by
  have hpromoted : SameVersion d row (promoted doc v) := ⟨hv.id, hv.version, hv.supersedesId⟩
  refine conducts_neutral_bind holding_settled (sends_attempt (moveToRaw_neutral _ _)) ?_
  intro moved
  cases moved with
  | error e =>
    exact conducts_update_bind _ ⟨hv.id, hv.version, hv.supersedesId⟩ nofun nofun nofun
      holding_settled
  | ok _ =>
    refine follows_bind (follows_attempt (follows_perform
      ⟨⟨row, rfl, hpromoted⟩, nofun, nofun, nofun⟩ fun r _ => ?_))
    cases r with
    | ok _ => exact handOver_conducts hv.id key v
    | error e =>
      cases e with
      | integrityError => exact lostRace_conducts (promoted doc v) hpromoted key v.sha256
      | _ => exact holding_settled

theorem dedupAndPromote_conducts (doc : Document) (hv : SameVersion d row doc)
    (key : ObjectKey) (v : ValidationResult) :
    Conducts sv d (.holding row) (dedupAndPromote doc key v none) := by
  refine conducts_neutral_bind holding_settled (sends_perform trivial) fun existing => ?_
  cases existing with
  | none => exact promote_conducts hv key v
  | some e =>
    show Conducts sv d _ (if e.id ≠ doc.id then _ else _)
    split
    · rename_i hne
      exact duplicate_conducts hv key v.sha256 hne
    · exact promote_conducts hv key v

theorem process_conducts (d : DocumentId) : Conducts sv d .fresh (process sv d none) := by
  refine conducts_getById_bind fresh_settled fun row hid => ?_
  show Conducts sv d _ (if _ then _ else _)
  split
  · exact holding_settled
  · refine conducts_neutral_bind holding_settled (sends_attempt (sends_perform trivial)) ?_
    intro r
    cases r with
    | error e =>
      exact conducts_update_bind (unreadable row) ⟨hid, rfl, rfl⟩ nofun nofun nofun
        holding_settled
    | ok data =>
      show Conducts sv d _ (if _ then _ else _)
      split
      · have hv : SameVersion d row
            { row with checksum := some (sv.validateDocument data row.mimeType).sha256 } :=
          ⟨hid, rfl, rfl⟩
        exact dedupAndPromote_conducts _ hv _ _
      · exact reject_conducts (.self hid) _

end ScanJobHandler

theorem extraction_conducts (d : DocumentId) :
    Conducts sv d .fresh (ExtractionJobHandler.process sv d) := by
  refine conducts_getById_bind fresh_settled fun row hid => ?_
  show Conducts sv d _ (if _ then _ else _)
  split
  · exact holding_settled
  · have hfail : ∀ message, Conducts sv d (.holding row)
        (ExtractionJobHandler.fail row message) := fun _ =>
      markFailed_conducts (.self hid) rfl ⟨by simp, by simp⟩ (by simp)
    cases hraw : row.rawPath with
    | none => exact hfail _
    | some rawKey =>
      refine conducts_neutral_bind holding_settled (sends_attempt (sends_perform trivial)) ?_
      intro r
      cases r with
      | error e => exact holding_settled
      | ok data =>
        show Conducts sv d _ (ExtractionJobHandler.extract sv row data)
        unfold ExtractionJobHandler.extract
        split
        · exact hfail _
        · exact holding_settled
        · refine conducts_neutral_bind holding_settled (sends_attempt (sends_perform trivial)) ?_
          intro r
          cases r with
          | error e => exact holding_settled
          | ok _ =>
            refine conducts_update_bind _ ⟨hid, rfl, rfl⟩ (by simp) (by simp) (by simp) ?_
            refine conducts_audit_bind (by simp) ?_
            subst hid
            exact conducts_enqueue_bind holding_settled

theorem normalization_conducts (d : DocumentId) :
    Conducts sv d .fresh (NormalizationJobHandler.process sv d) := by
  refine conducts_getById_bind fresh_settled fun row hid => ?_
  show Conducts sv d _ (if _ then _ else _)
  split
  · exact holding_settled
  · refine conducts_neutral_bind holding_settled (sends_attempt (sends_perform trivial)) ?_
    intro r
    cases r with
    | error e => exact holding_settled
    | ok extraction =>
      show Conducts sv d _ (if _ then _ else _)
      split
      · refine conducts_neutral_bind holding_settled (sends_attempt (sends_perform trivial)) ?_
        intro r
        cases r with
        | error e => exact holding_settled
        | ok _ =>
          refine conducts_update_bind _ ⟨hid, rfl, rfl⟩ nofun nofun nofun ?_
          refine conducts_audit_bind nofun ?_
          subst hid
          exact conducts_enqueue_bind holding_settled
      · exact markFailed_conducts (.self hid) rfl ⟨nofun, nofun⟩ nofun

theorem chunking_conducts (d : DocumentId) :
    Conducts sv d .fresh (ChunkingJobHandler.process sv d) := by
  refine conducts_getById_bind fresh_settled fun row hid => ?_
  show Conducts sv d _ (if _ then _ else _)
  split
  · exact holding_settled
  · refine conducts_neutral_bind holding_settled (sends_attempt (sends_perform trivial)) ?_
    intro r
    cases r with
    | error e => exact holding_settled
    | ok normalized =>
      show Conducts sv d _ (if _ then _ else _)
      split
      · exact markFailed_conducts (.self hid) rfl ⟨nofun, nofun⟩ nofun
      · refine conducts_neutral_bind holding_settled (sends_attempt (sends_perform trivial)) ?_
        intro r
        cases r with
        | error e => exact holding_settled
        | ok _ =>
          refine conducts_update_bind _ ⟨hid, rfl, rfl⟩ nofun nofun nofun ?_
          subst hid
          exact conducts_enqueue_bind (conducts_audit_bind nofun holding_settled)

namespace EmbeddingJobHandler

theorem detectedLanguage_neutral (id : DocumentId) :
    (detectedLanguage sv id).Sends (Neutral d) (fun _ _ => True) := by
  refine sends_bind (sends_attempt (sends_perform trivial)) fun r => ?_
  cases r with
  | error e => trivial
  | ok result =>
    show Program.Sends _ _ (if _ then _ else _)
    split <;> trivial

/-- There is a vector for each passage read, so LIVE comes after all of them. -/
theorem store_conducts (hid : row.id = d) {chunks : List Chunk} (hne : chunks ≠ [])
    {result : EmbeddingResult} (hlen : result.vectors.length = chunks.length) :
    Conducts sv d
      { copy := some row, owed := none, vectors := .loaded (chunks.map Chunk.chunkId) }
      (store row chunks result) := by
  refine follows_bind (follows_attempt (follows_perform nofun fun r _ => ?_))
  cases r with
  | error e => exact ⟨rfl, nofun⟩
  | ok _ =>
    have hids : ((chunks.map Chunk.chunkId).zip result.vectors).map Prod.fst =
        chunks.map Chunk.chunkId := List.map_fst_zip (by simp [hlen])
    have hzip : (chunks.map Chunk.chunkId).zip result.vectors ≠ [] := by
      intro h
      rw [h, List.map_nil] at hids
      exact hne (List.map_eq_nil_iff.mp hids.symm)
    show Follows _ _ (if _ then _ else _) _
    rw [if_pos ⟨by rw [hids], hzip⟩]
    refine follows_bind (follows_perform
      ⟨⟨row, rfl, hid, rfl, rfl⟩, nofun, fun _ => rfl, fun _ => rfl⟩ fun r _ => ?_)
    cases r with
    | ok _ => exact conducts_audit_bind nofun holding_settled
    | error e => exact holding_settled

theorem embed_conducts (hid : row.id = d) {chunks : List Chunk} (hne : chunks ≠ []) :
    Conducts sv d
      { copy := some row, owed := none, vectors := .loaded (chunks.map Chunk.chunkId) }
      (embed row chunks) := by
  have hx : Conduct.Settled
      { copy := some row, owed := none, vectors := .loaded (chunks.map Chunk.chunkId) } :=
    ⟨rfl, nofun⟩
  refine conducts_neutral_bind hx (sends_attempt (sends_perform trivial)) fun r => ?_
  cases r with
  | error e =>
    cases e with
    | valueError m => exact markFailed_conducts (.self hid) rfl ⟨nofun, nofun⟩ nofun
    | _ => exact hx
  | ok result =>
    show Conducts sv d _ (if _ then _ else _)
    split
    · exact markFailed_conducts (.self hid) rfl ⟨nofun, nofun⟩ nofun
    · rename_i hlen
      exact store_conducts hid hne (not_not.mp hlen)

theorem process_conducts (d : DocumentId) : Conducts sv d .fresh (process sv d) := by
  refine conducts_getById_bind fresh_settled fun row hid => ?_
  show Conducts sv d _ (if _ then _ else _)
  split
  · exact holding_settled
  · refine conducts_neutral_bind holding_settled (detectedLanguage_neutral d) fun language => ?_
    show Conducts sv d _ (if _ then _ else _)
    split
    · refine conducts_update_bind _ ⟨hid, rfl, rfl⟩ nofun nofun nofun ?_
      exact conducts_audit_bind nofun holding_settled
    · refine follows_bind (follows_perform nofun fun r _ => ?_)
      cases r with
      | error e => exact holding_settled
      | ok chunks =>
        show Conducts sv d (if d = d then _ else _) (if _ then _ else _)
        rw [if_pos rfl]
        split
        · exact markFailed_conducts (.self hid) rfl ⟨nofun, nofun⟩ nofun
        · rename_i hne
          exact embed_conducts hid (by simpa using hne)

end EmbeddingJobHandler

theorem conducts_outcome {α : Type} {p : Stage α} {x : Conduct} {f : α → JobOutcome}
    (h : Conducts sv d x p) : Conducts sv d x (do return f (← p)) := by
  refine follows_bind (Follows.mono ?_ h)
  intro y o hy
  cases o with
  | ok a => exact hy
  | error e => exact hy

theorem processJob_conducts (stage : JobStage) (d : DocumentId) :
    Conducts sv d .fresh (processJob sv stage d) := by
  cases stage with
  | scan => exact conducts_outcome (ScanJobHandler.process_conducts d)
  | extract => exact conducts_outcome (extraction_conducts d)
  | normalize => exact conducts_outcome (normalization_conducts d)
  | chunk => exact conducts_outcome (chunking_conducts d)
  | embed => exact conducts_outcome (EmbeddingJobHandler.process_conducts d)

end Stages

end KnowledgeBase
