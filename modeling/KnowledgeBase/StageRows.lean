import KnowledgeBase.Conduct
import KnowledgeBase.Rerun
import KnowledgeBase.Supersession

/-! What a stage, run to its end or cut off on the way, makes of the rows of the documents:
its own row gets a status of that stage, and of the others at most the tier is raised. -/

namespace KnowledgeBase

open Program ScanJobHandler

def exitStatuses : JobStage → List DocumentStatus
  | .scan => [.validated, .duplicate, .rejected, .validationFailed]
  | .extract => [.extracted, .extractionFailed]
  | .normalize => [.awaitingClassification, .normalizationFailed]
  | .chunk => [.chunked, .chunkingFailed]
  | .embed => [.live, .embeddingFailed, .skippedUnsupportedLanguage]

/-- The guard of the stage stops at a document of this status. -/
def Idle (stage : JobStage) (status : DocumentStatus) : Prop :=
  match stage with
  | .scan => status ∈ promotedStatuses ∨ status ∈ finalizedStatuses
  | stage => status ∉ entryStatuses stage

instance (stage : JobStage) (status : DocumentStatus) : Decidable (Idle stage status) := by
  cases stage <;> unfold Idle <;> infer_instance

/-- A row before and after a stage has worked on the document `id`. -/
structure Worked (stage : JobStage) (id : DocumentId) (r r' : Document) : Prop where
  id_eq : r'.id = r.id
  deletedAt : r'.deletedAt = r.deletedAt
  purgedAt : r'.purgedAt = r.purgedAt
  own : r.id = id → r'.classification = r.classification ∧
    (r'.status = r.status ∨ r'.status ∈ exitStatuses stage)
  other : r.id ≠ id → r' = { r with classification := r'.classification } ∧
    (r'.classification = r.classification ∨ r'.classification = some .restricted)

/-- No row comes or goes, and each is as `R` says. -/
def RowsRelate (R : Document → Document → Prop) (w w' : World) : Prop :=
  ∀ j, (w.doc j = none → w'.doc j = none) ∧
    ∀ r, w.doc j = some r → ∃ r', w'.doc j = some r' ∧ R r r'

section Relation

variable {R : Document → Document → Prop} {u w w' : World}

theorem RowsRelate.refl (hr : ∀ r, R r r) (w : World) : RowsRelate R w w :=
  fun _ => ⟨fun h => h, fun r h => ⟨r, h, hr r⟩⟩

theorem RowsRelate.trans (ht : ∀ a b c, R a b → R b c → R a c) (h : RowsRelate R w u)
    (h' : RowsRelate R u w') : RowsRelate R w w' := by
  intro j
  refine ⟨fun hn => (h' j).1 ((h j).1 hn), fun r hr => ?_⟩
  obtain ⟨q, hq, hrq⟩ := (h j).2 r hr
  obtain ⟨r', hr', hqr⟩ := (h' j).2 q hq
  exact ⟨r', hr', ht r q r' hrq hqr⟩

theorem RowsRelate.kept (h : RowsRelate R w w') {d : DocumentId} (hd : w.doc d ≠ none) :
    w'.doc d ≠ none := by
  obtain ⟨r, hr⟩ := Option.ne_none_iff_exists'.mp hd
  obtain ⟨r', hr', -⟩ := (h d).2 r hr
  rw [hr']
  exact Option.some_ne_none r'

/-- One row is rewritten, the others are as they were. -/
theorem rowsRelate_of_one {id : DocumentId} (hrefl : ∀ r, R r r)
    (hother : ∀ j, j ≠ id → w'.doc j = w.doc j) (hnone : w.doc id = none → w'.doc id = none)
    (hown : ∀ r, w.doc id = some r → ∃ r', w'.doc id = some r' ∧ R r r') :
    RowsRelate R w w' := by
  intro j
  by_cases hj : j = id
  · subst hj
    exact ⟨hnone, hown⟩
  · rw [hother j hj]
    exact ⟨fun h => h, fun r h => ⟨r, h, hrefl r⟩⟩

end Relation

namespace Worked

variable {stage : JobStage} {id : DocumentId} {a b c : Document}

theorem refl (stage : JobStage) (id : DocumentId) (r : Document) : Worked stage id r r :=
  ⟨rfl, rfl, rfl, fun _ => ⟨rfl, .inl rfl⟩, fun _ => ⟨rfl, .inl rfl⟩⟩

theorem trans (h : Worked stage id a b) (h' : Worked stage id b c) : Worked stage id a c where
  id_eq := h'.id_eq.trans h.id_eq
  deletedAt := h'.deletedAt.trans h.deletedAt
  purgedAt := h'.purgedAt.trans h.purgedAt
  own ha := by
    obtain ⟨hc, hs⟩ := h.own ha
    obtain ⟨hc', hs'⟩ := h'.own (h.id_eq.trans ha)
    refine ⟨hc'.trans hc, ?_⟩
    rcases hs' with hs' | hs'
    · rw [hs']
      exact hs
    · exact .inr hs'
  other ha := by
    obtain ⟨hb, hbc⟩ := h.other ha
    obtain ⟨hc, hcc⟩ := h'.other (h.id_eq ▸ ha)
    refine ⟨?_, ?_⟩
    · rw [hc, hb]
    · rcases hcc with hcc | hcc
      · rw [hcc]
        exact hbc
      · exact .inr hcc

end Worked

/-- What a stage that works on `id` sends. -/
def WorksOn (stage : JobStage) (id : DocumentId) : Op → Prop
  | .updateDocument doc => doc.id = id ∧ doc.status ∈ exitStatuses stage
  | .setClassification k tier => k ≠ id ∧ tier = .restricted
  | .create _ | .softDelete _ | .restore _ => False
  | .persistChunks k _ _ | .enqueue k _ => k = id
  | .putExtraction key _ | .putNormalization key _ => key = artifactKeyFor id
  | _ => True

/-- What a stage that holds `doc` sends: its row is written back with the hash and the file that
`doc` has, and only the scan names another file of it in the raw bucket. -/
def Handles (stage : JobStage) (doc : Document) : Op → Prop
  | .updateDocument d => (d.id = doc.id ∧ d.status ∈ exitStatuses stage) ∧
      d.checksum = doc.checksum ∧ d.mimeType = doc.mimeType ∧
      (d.quarantinePath = doc.quarantinePath ∨ d.quarantinePath = none) ∧
      (stage ≠ .scan → d.rawPath = doc.rawPath)
  | .setClassification k tier => k ≠ doc.id ∧ tier = .restricted
  | .create _ | .softDelete _ | .restore _ | .putObject _ _ _ => False
  | .copyObject _ _ bucket _ => bucket = .raw
  | .deleteObject bucket _ => bucket = .quarantine
  | .persistChunks k _ _ | .enqueue k _ => k = doc.id
  | .putExtraction key _ | .putNormalization key _ => key = artifactKeyFor doc.id
  | _ => True

theorem Handles.worksOn {stage : JobStage} {doc : Document} {op : Op} (h : Handles stage doc op) :
    WorksOn stage doc.id op := by
  cases op
  case updateDocument => exact h.1
  case setClassification | create | softDelete | restore | persistChunks | enqueue | putExtraction
    | putNormalization => exact h
  all_goals trivial

theorem handles_update {stage : JobStage} {doc d : Document}
    (h : d.id = doc.id ∧ d.status ∈ exitStatuses stage)
    (hc : d.checksum = doc.checksum := by rfl) (hm : d.mimeType = doc.mimeType := by rfl)
    (hq : d.quarantinePath = doc.quarantinePath ∨ d.quarantinePath = none := by
      first | exact .inl rfl | exact .inr rfl)
    (hraw : stage ≠ .scan → d.rawPath = doc.rawPath := by
      first | exact fun _ => rfl | exact fun h => absurd rfl h) :
    Handles stage doc (.updateDocument d) := ⟨h, hc, hm, hq, hraw⟩

section Operations

variable {sv : Services} {stage : JobStage} {id : DocumentId} {w w' : World}

theorem worked_of_acts {op : Op} {r : Except Exn op.Resp} (hop : WorksOn stage id op)
    (h : Acts sv op w r w') (hd : ∃ row, w.doc id = some row) :
    RowsRelate (Worked stage id) w w' := by
  by_cases hrow : op.row = none
  · have hdocs : ∀ j, w'.doc j = w.doc j := fun j => by
      rw [World.doc, World.doc, documents_of_acts h hrow]
    intro j
    rw [hdocs j]
    exact ⟨fun hn => hn, fun r hr => ⟨r, hr, .refl stage id r⟩⟩
  · cases op
    case updateDocument doc =>
      obtain ⟨rfl, hs⟩ := hop
      obtain ⟨row, hrow⟩ := hd
      rcases acts_updateDocument.mp h with ⟨-, -, rfl⟩ | ⟨t, ht, -, rfl⟩
      · exact RowsRelate.refl (Worked.refl stage doc.id) w'
      · refine rowsRelate_of_one (Worked.refl stage doc.id)
          (fun j hj => Documents.updateDocument_get_other ht hj)
          (fun hn => by rw [hrow] at hn; cases hn) fun r hr => ?_
        have hid : r.id = doc.id := Documents.get_id hr
        exact ⟨doc.writeBack r, Documents.updateDocument_get ht hr, rfl, rfl, rfl,
          fun _ => ⟨rfl, .inr hs⟩, fun hne => absurd hid hne⟩
    case setClassification k tier =>
      obtain ⟨hk, rfl⟩ := hop
      obtain ⟨-, rfl⟩ := acts_setClassification.mp h
      refine rowsRelate_of_one (Worked.refl stage id)
        (fun j hj => setClassification_doc_other hj) (fun hn => ?_) fun r hr => ?_
      · rw [setClassification_docs, hn]
        rfl
      · have hid : r.id = k := Documents.get_id hr
        refine ⟨{ r with classification := some .restricted }, setClassification_doc hr, rfl, rfl,
          rfl, fun he => absurd (hid.symm.trans he) hk, fun _ => ⟨rfl, .inr rfl⟩⟩
    case create | softDelete | restore => exact hop.elim
    all_goals exact absurd rfl hrow

/-- The operations of a stage, taken together. -/
theorem worked_of_visits {α : Type} {p : Stage α} (h : Visits (Acts sv) p w w')
    (hp : p.Sends (WorksOn stage id) (fun _ _ => True)) {row : Document}
    (hd : w.doc id = some row) : RowsRelate (Worked stage id) w w' := by
  refine h.invariant (I := fun u : World => RowsRelate (Worked stage id) w u) hp ?_
    (RowsRelate.refl (Worked.refl stage id) w)
  intro op u r u' hop ha hu
  obtain ⟨row', hrow', -⟩ := (hu id).2 row hd
  exact hu.trans (fun a b c hab hbc => hab.trans hbc) (worked_of_acts hop ha ⟨row', hrow'⟩)

theorem markFailed_works {doc : Document} {status : DocumentStatus} {event : AuditEventType}
    {message reason : String} (hs : status ∈ exitStatuses stage) :
    (markFailed doc status event message reason).Sends (Handles stage doc)
      (fun _ _ => True) := by
  refine sends_bind (sends_perform (handles_update ⟨rfl, hs⟩)) fun _ => ?_
  exact sends_bind (sends_perform trivial) fun _ => trivial

end Operations

section Scan

/-- A tier is only ever raised, and the highest is RESTRICTED. -/
theorem restricted_of_stricter {c : Classification} {d : Option Classification}
    (h : isStricter (some c) d = true) : c = .restricted := by
  cases c with
  | restricted => rfl
  | «public» => simp [isStricter, tierRank] at h

theorem duplicate_works {doc existing : Document} (hne : existing.id ≠ doc.id) (key : ObjectKey)
    (sha256 : Sha256) :
    (duplicate doc key sha256 existing).Sends (Handles .scan doc) (fun _ _ => True) :=
  duplicate_sends_of (fun _ hs => ⟨hne, restricted_of_stricter hs⟩)
    (handles_update ⟨rfl, by simp [exitStatuses]⟩) rfl fun _ _ _ => trivial

theorem reject_works (doc : Document) (v : ValidationResult) :
    (reject doc v).Sends (Handles .scan doc) (fun _ _ => True) :=
  reject_sends_of (handles_update ⟨rfl, by simp [exitStatuses]⟩) rfl fun _ _ _ => trivial

theorem lostRace_works (doc : Document) (key : ObjectKey) (sha256 : Sha256) :
    (lostRace doc key sha256).Sends (Handles .scan doc) (fun _ _ => True) :=
  lostRace_sends_of (handles_update ⟨rfl, by simp [exitStatuses]⟩) trivial
    (fun _ hne _ hs => ⟨hne, restricted_of_stricter hs⟩) fun _ _ _ => trivial

theorem Handles.of_promoted {doc : Document} {v : ValidationResult} {op : Op}
    (h : Handles .scan (promoted doc v) op) : Handles .scan doc op := by
  cases op
  case updateDocument =>
    obtain ⟨hs, hc, hm, hq, -⟩ := h
    exact ⟨hs, hc, hm, .inr (hq.elim id id), fun hne => absurd rfl hne⟩
  all_goals exact h

theorem promote_works (doc : Document) (key : ObjectKey) (v : ValidationResult) :
    (promote doc key v).Sends (Handles .scan doc) (fun _ _ => True) :=
  promote_sends_of (moveToRaw_sends_of trivial rfl rfl)
    (handles_update ⟨rfl, by simp [exitStatuses, unpromoted]⟩)
    (handles_update ⟨rfl, by simp [exitStatuses, promoted]⟩)
    ((lostRace_works (promoted doc v) key v.sha256).mono fun _ => Handles.of_promoted)
    (handOver_sends_of (fun _ _ _ => trivial) rfl)

theorem dedupAndPromote_works (doc : Document) (key : ObjectKey) (v : ValidationResult) :
    (dedupAndPromote doc key v none).Sends (Handles .scan doc) (fun _ _ => True) := by
  refine sends_bind (sends_perform trivial) fun existing => ?_
  cases existing with
  | none => exact promote_works doc key v
  | some e =>
    dsimp only
    split
    · rename_i hne
      exact duplicate_works hne key v.sha256
    · exact promote_works doc key v

end Scan

/-- What becomes of a document whose stage it is: the guard stops the stage, or it works with a
copy of the row. -/
inductive Turn (sv : Services) (stage : JobStage) (d : Document) (w : World) : World → Prop
  | idles (h : Idle stage d.status) : Turn sv stage d w w
  | acts {α : Type} (doc : Document) (p : Stage α) (w' : World) (hidle : ¬ Idle stage d.status)
      (hid : doc.id = d.id) (hm : doc.mimeType = d.mimeType)
      (hq : doc.quarantinePath = d.quarantinePath)
      (hraw : doc.rawPath = d.rawPath)
      (hc : stage ≠ .scan → doc.checksum = d.checksum) (h : Visits (Acts sv) p w w')
      (hp : p.Sends (Handles stage doc) (fun _ _ => True)) : Turn sv stage d w w'

section Stages

variable {sv : Services} {id : DocumentId} {d : Document} {w w' : World}

theorem Turn.works {stage : JobStage} (h : Turn sv stage d w w') (hd : w.doc d.id = some d) :
    RowsRelate (Worked stage d.id) w w' ∧ (Idle stage d.status → w' = w) := by
  cases h with
  | idles h => exact ⟨RowsRelate.refl (Worked.refl stage d.id) w, fun _ => rfl⟩
  | acts doc p w' hidle hid hm hq hraw hc h hp =>
    refine ⟨worked_of_visits h (hp.mono fun op hop => ?_) hd, fun hi => absurd hi hidle⟩
    rw [← hid]
    exact hop.worksOn

theorem scan_turn (h : Visits (Acts sv) (ScanJobHandler.process sv id none) w w')
    (hd : w.doc id = some d) : Turn sv .scan d w w' := by
  obtain rfl : d.id = id := Documents.get_id hd
  have h' := visits_getById_bind h
  simp only [hd] at h'
  split at h'
  · rename_i hs
    obtain rfl := visits_pure h'
    exact .idles hs
  · rename_i hs
    rcases visits_attempt_getObject_bind h' with ⟨e, h'⟩ | ⟨data, -, h'⟩
    · refine .acts d _ w' hs rfl rfl rfl rfl (fun _ => rfl) h' ?_
      exact sends_bind (sends_perform (handles_update ⟨rfl, by simp [exitStatuses, unreadable]⟩))
        fun _ => trivial
    · dsimp only at h'
      split at h'
      · exact .acts { d with checksum := some _ } _ w' hs rfl rfl rfl rfl (fun hne => absurd rfl hne)
          h' (dedupAndPromote_works _ _ _)
      · exact .acts d _ w' hs rfl rfl rfl rfl (fun _ => rfl) h' (reject_works d _)

/-- A stage after the scan looks its document up, stops unless the status is the one it waits
for, and works with the copy it has read. -/
def Staged (stage : JobStage) (entry : DocumentStatus) (id : DocumentId) {α : Type}
    (p : Stage α) : Prop :=
  ∃ (missing : α) (skipped : Document → α) (body : Document → Stage α),
    (p = send (.getById id) >>= fun loaded =>
      match loaded with
      | none => pure missing
      | some d => if d.status ≠ entry then pure (skipped d) else body d) ∧
    ∀ d, d.id = id → (body d).Sends (Handles stage d) fun _ _ => True

section Staged

variable {α : Type} {stage : JobStage} {entry : DocumentStatus} {p : Stage α}

theorem Staged.turn (hp : Staged stage entry id p) (h : Visits (Acts sv) p w w')
    (hd : w.doc id = some d) (hentry : ¬ Idle stage entry)
    (hother : ∀ status, status ≠ entry → Idle stage status) : Turn sv stage d w w' := by
  obtain ⟨missing, skipped, body, rfl, hbody⟩ := hp
  have h' := visits_getById_bind h
  simp only [hd] at h'
  split at h'
  · rename_i hs
    obtain rfl := visits_pure h'
    exact .idles (hother d.status hs)
  · rename_i hs
    refine .acts d (body d) w' ?_ rfl rfl rfl rfl (fun _ => rfl) h' (hbody d (Documents.get_id hd))
    rw [not_not.mp hs]
    exact hentry

theorem Staged.missing (hp : Staged stage entry id p) (h : Visits (Acts sv) p w w')
    (hd : w.doc id = none) : w' = w := by
  obtain ⟨missing, skipped, body, rfl, -⟩ := hp
  have h' := visits_getById_bind h
  rw [hd] at h'
  exact visits_pure h'

/-- The row it reads is the one it has asked for. -/
theorem sends_getById_bind {allowed : Op → Prop} {k : Option Document → Stage α}
    (hget : allowed (.getById id)) (hnone : (k none).Sends allowed (Possible sv))
    (hsome : ∀ d, d.id = id → (k (some d)).Sends allowed (Possible sv)) :
    (send (.getById id) >>= k).Sends allowed (Possible sv) := by
  refine ⟨hget, fun r hr => ?_⟩
  obtain ⟨w, rfl⟩ := possible_getById hr
  show (k (w.doc id)).Sends allowed (Possible sv)
  cases hd : w.doc id with
  | none => exact hnone
  | some d => exact hsome d (Documents.get_id hd)

theorem worksOn_of_handles (doc : Document) (hid : doc.id = id)
    (hp : p.Sends (Handles stage doc) fun _ _ => True) :
    p.Sends (WorksOn stage id) (Possible sv) := by
  subst hid
  exact (hp.mono fun _ => Handles.worksOn).expect fun _ _ _ => trivial

theorem Staged.sends (hp : Staged stage entry id p) :
    p.Sends (WorksOn stage id) (Possible sv) := by
  obtain ⟨missing, skipped, body, rfl, hbody⟩ := hp
  refine sends_getById_bind trivial trivial fun d hid => ?_
  dsimp only
  split
  · trivial
  · exact worksOn_of_handles d hid (hbody d hid)

end Staged

theorem extract_staged (sv : Services) (id : DocumentId) :
    Staged .extract .validated id (ExtractionJobHandler.process sv id) := by
  refine ⟨_, _, _, rfl, fun d hid => ?_⟩
  cases d.rawPath with
  | none => exact markFailed_works (by simp [exitStatuses])
  | some rawKey =>
    refine sends_bind (sends_attempt (sends_perform trivial)) fun read => ?_
    cases read with
    | error e => trivial
    | ok data =>
      dsimp only [ExtractionJobHandler.extract]
      split
      · exact markFailed_works (by simp [exitStatuses])
      · trivial
      · refine sends_bind (sends_attempt (sends_perform rfl)) fun written => ?_
        cases written with
        | error e => trivial
        | ok _ =>
          refine sends_bind (sends_perform (handles_update ⟨rfl, by simp [exitStatuses]⟩)) fun _ => ?_
          refine sends_bind (sends_perform trivial) fun _ => ?_
          exact sends_bind (sends_perform rfl) fun _ => trivial

theorem normalize_staged (sv : Services) (id : DocumentId) :
    Staged .normalize .extracted id (NormalizationJobHandler.process sv id) := by
  refine ⟨_, _, _, rfl, fun d hid => ?_⟩
  refine sends_bind (sends_attempt (sends_perform trivial)) fun read => ?_
  cases read with
  | error e => trivial
  | ok extraction =>
    dsimp only
    split
    · refine sends_bind (sends_attempt (sends_perform rfl)) fun written => ?_
      cases written with
      | error e => trivial
      | ok _ =>
        refine sends_bind (sends_perform (handles_update ⟨rfl, by simp [exitStatuses]⟩)) fun _ => ?_
        refine sends_bind (sends_perform trivial) fun _ => ?_
        exact sends_bind (sends_perform rfl) fun _ => trivial
    · exact markFailed_works (by simp [exitStatuses])

theorem chunk_staged (sv : Services) (id : DocumentId) :
    Staged .chunk .awaitingClassification id (ChunkingJobHandler.process sv id) := by
  refine ⟨_, _, _, rfl, fun d hid => ?_⟩
  refine sends_bind (sends_attempt (sends_perform trivial)) fun read => ?_
  cases read with
  | error e => trivial
  | ok normalized =>
    dsimp only
    split
    · exact markFailed_works (by simp [exitStatuses])
    · refine sends_bind (sends_attempt (sends_perform rfl)) fun persisted => ?_
      cases persisted with
      | error e => trivial
      | ok _ =>
        refine sends_bind (sends_perform (handles_update ⟨rfl, by simp [exitStatuses]⟩)) fun _ => ?_
        refine sends_bind (sends_perform rfl) fun _ => ?_
        exact sends_bind (sends_perform trivial) fun _ => trivial

theorem embed_body_works (d : Document) (chunks : List Chunk) :
    (EmbeddingJobHandler.embed d chunks).Sends (Handles .embed d) (fun _ _ => True) := by
  refine sends_bind (sends_attempt (sends_perform trivial)) fun embedded => ?_
  have hstore : ∀ result : EmbeddingResult,
      (EmbeddingJobHandler.store d chunks result).Sends (Handles .embed d)
        (fun _ _ => True) := by
    intro result
    refine sends_bind (sends_attempt (sends_perform trivial)) fun written => ?_
    cases written with
    | error e => trivial
    | ok _ =>
      refine sends_bind (sends_perform (handles_update ⟨rfl, by simp [exitStatuses]⟩)) fun _ => ?_
      exact sends_bind (sends_perform trivial) fun _ => trivial
  cases embedded with
  | error e =>
    cases e with
    | valueError m => exact markFailed_works (by simp [exitStatuses])
    | _ => trivial
  | ok result =>
    dsimp only
    split
    · exact markFailed_works (by simp [exitStatuses])
    · exact hstore result

theorem embed_staged (sv : Services) (id : DocumentId) :
    Staged .embed .chunked id (EmbeddingJobHandler.process sv id) := by
  refine ⟨_, _, _, rfl, fun d hid => ?_⟩
  have hlanguage : (EmbeddingJobHandler.detectedLanguage sv id).Sends (Handles .embed d)
      (fun _ _ => True) := by
    refine sends_bind (sends_attempt (sends_perform trivial)) fun read => ?_
    cases read with
    | error e => trivial
    | ok result =>
      dsimp only
      split <;> trivial
  refine sends_bind hlanguage fun language => ?_
  split
  · refine sends_bind (sends_perform (handles_update ⟨rfl, by simp [exitStatuses]⟩)) fun _ => ?_
    exact sends_bind (sends_perform trivial) fun _ => trivial
  · refine sends_bind (sends_perform trivial) fun chunks => ?_
    split
    · exact markFailed_works (by simp [exitStatuses])
    · exact embed_body_works d chunks

theorem scan_sends (sv : Services) (id : DocumentId) :
    (ScanJobHandler.process sv id none).Sends (WorksOn .scan id) (Possible sv) := by
  refine sends_getById_bind trivial trivial fun d hid => ?_
  dsimp only
  split
  · trivial
  · refine sends_bind (sends_attempt (sends_perform trivial)) fun read => ?_
    cases read with
    | error e =>
      refine worksOn_of_handles d hid ?_
      exact sends_bind (sends_perform
        (handles_update ⟨rfl, by simp [exitStatuses, unreadable]⟩)) fun _ => trivial
    | ok data =>
      dsimp only
      split
      · let doc : Document :=
          { d with checksum := some (sv.validateDocument data d.mimeType).sha256 }
        exact worksOn_of_handles doc hid (dedupAndPromote_works doc _ _)
      · exact worksOn_of_handles d hid (reject_works d _)

/-- What a worker hands its queue at the end changes nothing. -/
theorem visits_then_pure {α β : Type} {p : Stage α} {f : α → β}
    (h : Visits (Acts sv) (do return f (← p)) w w') : Visits (Acts sv) p w w' := by
  rcases visits_bind h with h | ⟨a, u, ha, h⟩
  · exact h
  · obtain rfl := visits_pure h
    exact ha.visits

theorem missing_works {stage : JobStage} (h : Visits (Acts sv) (processJob sv stage id) w w')
    (hd : w.doc id = none) : w' = w := by
  cases stage with
  | scan =>
    have h' := visits_getById_bind (visits_then_pure h)
    rw [hd] at h'
    exact visits_pure h'
  | extract => exact (extract_staged sv id).missing (visits_then_pure h) hd
  | normalize => exact (normalize_staged sv id).missing (visits_then_pure h) hd
  | chunk => exact (chunk_staged sv id).missing (visits_then_pure h) hd
  | embed => exact (embed_staged sv id).missing (visits_then_pure h) hd

theorem idle_of_entry {stage : JobStage} {entry : DocumentStatus} (hne : stage ≠ .scan)
    (hentry : entryStatuses stage = [entry]) (status : DocumentStatus) (hs : status ≠ entry) :
    Idle stage status := by
  cases stage <;> simp_all [Idle]

theorem stage_turn {stage : JobStage} (h : Visits (Acts sv) (processJob sv stage id) w w')
    (hd : w.doc id = some d) : Turn sv stage d w w' := by
  cases stage with
  | scan => exact scan_turn (visits_then_pure h) hd
  | extract =>
    exact (extract_staged sv id).turn (visits_then_pure h) hd (by decide) (idle_of_entry nofun rfl)
  | normalize =>
    exact (normalize_staged sv id).turn (visits_then_pure h) hd (by decide)
      (idle_of_entry nofun rfl)
  | chunk =>
    exact (chunk_staged sv id).turn (visits_then_pure h) hd (by decide) (idle_of_entry nofun rfl)
  | embed =>
    exact (embed_staged sv id).turn (visits_then_pure h) hd (by decide) (idle_of_entry nofun rfl)

/-- A stage writes for its own document only. -/
theorem processJob_sends (sv : Services) (stage : JobStage) (id : DocumentId) :
    (processJob sv stage id).Sends (WorksOn stage id) (Possible sv) := by
  cases stage with
  | scan => exact sends_bind (scan_sends sv id) fun _ => trivial
  | extract => exact sends_bind (extract_staged sv id).sends fun _ => trivial
  | normalize => exact sends_bind (normalize_staged sv id).sends fun _ => trivial
  | chunk => exact sends_bind (chunk_staged sv id).sends fun _ => trivial
  | embed => exact sends_bind (embed_staged sv id).sends fun _ => trivial

/-- What a stage makes of the rows, and that its guard stops it. -/
theorem stage_rows {stage : JobStage} (h : Visits (Acts sv) (processJob sv stage id) w w') :
    RowsRelate (Worked stage id) w w' ∧
      ∀ d, w.doc id = some d → Idle stage d.status → w' = w := by
  cases hd : w.doc id with
  | none =>
    rw [missing_works h hd]
    exact ⟨RowsRelate.refl (Worked.refl stage id) w, fun d hd' => by cases hd'⟩
  | some d =>
    obtain rfl : d.id = id := Documents.get_id hd
    obtain ⟨hrows, hidle⟩ := (stage_turn h hd).works hd
    exact ⟨hrows, fun d' hd' => Option.some.inj hd' ▸ hidle⟩

end Stages

end KnowledgeBase
