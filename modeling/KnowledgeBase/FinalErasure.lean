import KnowledgeBase.EraseFailure
import KnowledgeBase.RetryBound
import KnowledgeBase.Searchable

/-! An erasure beside the running pipeline, one transaction or one call of the storage at a
time. It cancels the jobs that wait and is refused while one is RUNNING; a worker whose job
has been given back to the queue is not asked. -/

namespace KnowledgeBase

open Program RunningState World

/-- How far a delete has come, with the copy of the row it was asked for. -/
inductive Eraser where
  | loaded (doc : Document)
  | removing (doc : Document) (claimed : Bool) (slots : List EraseSlot)
  | unindexed (doc : Document)
  | purged (doc : Document)

namespace Eraser

def doc : Eraser → Document
  | loaded doc | removing doc _ _ | unindexed doc | purged doc => doc

/-- The next transaction or call of `erase_document`. Where it goes wrong the delete ends,
but for the audit write, which only loses the claims on the jobs. -/
def step (fine : Bool) (w : World) : Eraser → (Eraser ⊕ EraseOutcome) × World
  | loaded doc =>
    if w.busy doc.id then (.inr .documentBusy, w)
    else if fine then
      (.inl (removing doc true eraseSlots),
        ({ w with jobs := w.jobs.map (w.cancelJob doc.id) } : World).auditEvent doc.id
          .documentDeleted true)
    else (.inl (removing doc false eraseSlots), w)
  | removing doc claimed (slot :: slots) =>
    if w.present doc slot then
      if fine then (.inl (removing doc claimed slots), w.removeSlot doc slot)
      else (.inr (.storageEraseFailed slot), w)
    else (.inl (removing doc claimed slots), w)
  | removing doc claimed [] =>
    if claimed && fine then
      (.inl (unindexed doc),
        { w with chunks := w.chunks.filter fun c => c.documentId ≠ doc.id })
    else (.inr .databaseError, w)
  | unindexed doc =>
    if fine then (.inl (purged doc), w.purge doc.id) else (.inr .databaseError, w)
  | purged doc =>
    if fine then
      (.inr .erased, match doc.checksum with
        | none => w
        | some sha256 => w.purgeDuplicatesOf sha256)
    else (.inr .databaseError, w)

def fine (luck : EraseLuck) : Eraser → Bool
  | loaded _ => luck.auditWritten
  | removing _ _ (slot :: _) => luck.deletes slot
  | _ => true

/-- A delete with nobody beside it. -/
inductive Alone (luck : EraseLuck) : Eraser → World → EraseOutcome × World → Prop
  | last {e : Eraser} {w w' : World} {o : EraseOutcome}
      (h : e.step (e.fine luck) w = (.inr o, w')) : Alone luck e w (o, w')
  | next {e e' : Eraser} {w w' : World} {end' : EraseOutcome × World}
      (h : e.step (e.fine luck) w = (.inl e', w')) (hrest : Alone luck e' w' end') :
      Alone luck e w end'

/-- Everything one step can do. -/
inductive Moves (fine : Bool) (w : World) : Eraser → Eraser ⊕ EraseOutcome → World → Prop
  | refused (e : Eraser) (o : EraseOutcome) (ho : o ≠ .erased) : Moves fine w e (.inr o) w
  | claimed (doc : Document) (audit : List (DocumentId × AuditEventType)) (hfine : fine = true)
      (hfree : w.busy doc.id = false) :
      Moves fine w (loaded doc) (.inl (removing doc true eraseSlots))
        { w with jobs := w.jobs.map (w.cancelJob doc.id), audit }
  | unclaimed (doc : Document) :
      Moves fine w (loaded doc) (.inl (removing doc false eraseSlots)) w
  | removed (doc : Document) (claimed : Bool) (slot : EraseSlot) (slots : List EraseSlot) :
      Moves fine w (removing doc claimed (slot :: slots)) (.inl (removing doc claimed slots))
        (w.removeSlot doc slot)
  | absent (doc : Document) (claimed : Bool) (slot : EraseSlot) (slots : List EraseSlot)
      (h : w.present doc slot = false) :
      Moves fine w (removing doc claimed (slot :: slots)) (.inl (removing doc claimed slots)) w
  | unindexed (doc : Document) :
      Moves fine w (removing doc true []) (.inl (unindexed doc))
        { w with chunks := w.chunks.filter fun c => c.documentId ≠ doc.id }
  | purged (doc : Document) : Moves fine w (unindexed doc) (.inl (purged doc)) (w.purge doc.id)
  | erased (doc : Document) : Moves fine w (purged doc) (.inr .erased)
      (match doc.checksum with
        | none => w
        | some sha256 => w.purgeDuplicatesOf sha256)

theorem step_moves (fine : Bool) (w : World) (e : Eraser) :
    Moves fine w e (e.step fine w).1 (e.step fine w).2 := by
  cases e with
  | loaded doc =>
    rw [step]
    split
    · exact .refused _ _ nofun
    · rename_i hbusy
      split
      · rename_i hfine
        obtain ⟨a, ha⟩ := auditEvent_eq { w with jobs := w.jobs.map (w.cancelJob doc.id) } doc.id
          .documentDeleted true
        dsimp only
        rw [ha]
        exact .claimed doc a hfine (Bool.eq_false_iff.mpr hbusy)
      · exact .unclaimed doc
  | removing doc claimed slots =>
    cases slots with
    | nil =>
      rw [step]
      split
      · rename_i h
        rw [Bool.and_eq_true] at h
        obtain rfl := h.1
        exact .unindexed doc
      · exact .refused _ _ nofun
    | cons slot slots =>
      rw [step]
      split
      · split
        · exact .removed doc claimed slot slots
        · exact .refused _ _ nofun
      · rename_i h
        exact .absent doc claimed slot slots (Bool.eq_false_iff.mpr h)
  | unindexed doc =>
    rw [step]
    split
    · exact .purged doc
    · exact .refused _ _ nofun
  | purged doc =>
    rw [step]
    split
    · exact .erased doc
    · exact .refused _ _ nofun

end Eraser

/-- The pipeline, the delete that is going on, and the documents whose delete has been
answered with success. -/
structure ErasingState where
  running : RunningState
  eraser : Option Eraser
  erased : List DocumentId

inductive ErasingAction where
  | run (a : RunAction)
  | deleteDocument (id : DocumentId)
  | eraseDocument (fine : Bool)

namespace ErasingState

def world (s : ErasingState) : World := s.running.world

def step (sv : Services) (fleet : Fleet) (s : ErasingState) : ErasingAction → Option ErasingState
  | .run a => (s.running.step sv fleet a).map fun running => { s with running }
  | .deleteDocument id =>
    match s.eraser, s.world.doc id with
    | none, some doc =>
      if doc.purgedAt = none then some { s with eraser := some (.loaded doc) } else none
    | _, _ => none
  | .eraseDocument fine =>
    s.eraser.map fun e =>
      let running := { s.running with world := (e.step fine s.world).2 }
      match (e.step fine s.world).1 with
      | .inl e' => { s with running, eraser := some e' }
      | .inr .erased => { running, eraser := none, erased := e.doc.id :: s.erased }
      | .inr _ => { s with running, eraser := none }

structure Fresh (s : ErasingState) : Prop where
  running : s.running.Fresh
  eraser : s.eraser = none
  erased : s.erased = []

end ErasingState

/-- Nothing of the document's content is left. -/
structure Gone (w : World) (id : DocumentId) : Prop where
  chunks : ∀ c ∈ w.chunks, c.documentId ≠ id
  extracted : w.extracted (artifactKeyFor id) = none
  normalized : w.normalized (artifactKeyFor id) = none
  row : ∀ r, w.doc id = some r → r.checksum = none ∧ r.rawPath = none ∧ r.quarantinePath = none

/-- The operation brings nothing of the document about. -/
def Apart (id : DocumentId) : Op → Prop
  | .create doc | .updateDocument doc => doc.id ≠ id
  | .persistChunks k _ _ | .enqueue k _ => k ≠ id
  | .putExtraction key _ | .putNormalization key _ => key ≠ artifactKeyFor id
  | _ => True

/-- The rest of the program does nothing more to the document, and its job will not be
retried. -/
def Finished (sv : Services) (id : DocumentId) : Stage JobOutcome → Prop
  | .ret o => ∀ message, o ≠ .transient message
  | .raise _ => False
  | .call op next => Apart id op ∧ ∀ r, Possible sv op r → Finished sv id (next r)

/-- The rest of the upload queues no job for a document that is there. -/
def QueuesNothing (id : DocumentId) (p : Stage UploadResponse) : Prop :=
  p.Sends (fun op => Apart id op ∨ ∃ doc, op = .create doc ∧ doc.id = id)
    fun op r => ∀ doc, op = .create doc → ∃ e, r = .error e

/-- No worker and no upload has anything left to do to the document. -/
def NobodyAtWork (sv : Services) (s : RunningState) (id : DocumentId) : Prop :=
  (∀ i item, s.current i = some item → item.documentId = id → Finished sv id (s.rest i)) ∧
    ∀ p, s.uploads id = some p → QueuesNothing id p

/-- When an erasure takes the jobs of its document, nobody is at work on it. -/
def ClaimsAlone (sv : Services) (s : ErasingState) : ErasingAction → Prop
  | .eraseDocument true => ∀ doc, s.eraser = some (.loaded doc) → s.world.busy doc.id = false →
      NobodyAtWork sv s.running doc.id
  | _ => True

/-- The row is there, and no delete has been through with it. -/
def Unpurged (w : World) (id : DocumentId) : Prop :=
  ∃ row, w.doc id = some row ∧ row.purgedAt = none

/-- Of the artifacts those are gone that are not still to be removed. -/
def Cleared (w : World) (doc : Document) (slots : List EraseSlot) : Prop :=
  ∀ slot ∈ [EraseSlot.extracted, .normalized], slot ∈ slots ∨ w.present doc slot = false

/-- Nobody has anything left to do to the document. -/
structure Quiet (sv : Services) (s : RunningState) (id : DocumentId) : Prop where
  there : s.world.doc id ≠ none
  jobs : ∀ j r, s.world.jobs.job j = some r → r.documentId = id →
    r.status ≠ .pending ∧ r.status ≠ .running
  workers : ∀ i item, s.current i = some item → item.documentId = id → Finished sv id (s.rest i)
  uploads : ∀ p, s.uploads id = some p → QueuesNothing id p

/-- What the programs at work are about, and whose job each is. -/
structure Sound (sv : Services) (s : RunningState) : Prop where
  ids : ∀ j r, s.world.jobs.job j = some r → j < s.world.nextId
  items : ∀ i item, s.current i = some item → ∃ r, s.world.jobs.job item.jobId = some r ∧
    r.documentId = item.documentId
  workers : ∀ i item, s.current i = some item →
    ∃ stage, (s.rest i).Sends (WorksOn stage item.documentId) (Possible sv)
  uploads : ∀ d p, s.uploads d = some p → p.Sends (Uploads d) fun _ _ => True

/-- What is gone of the document stays gone. -/
structure Spares (id : DocumentId) (w w' : World) : Prop where
  there : w.doc id ≠ none → w'.doc id ≠ none
  chunks : (∀ c ∈ w.chunks, c.documentId ≠ id) → ∀ c ∈ w'.chunks, c.documentId ≠ id
  extracted : w.extracted (artifactKeyFor id) = none → w'.extracted (artifactKeyFor id) = none
  normalized : w.normalized (artifactKeyFor id) = none → w'.normalized (artifactKeyFor id) = none
  row : (∀ r, w.doc id = some r → r.checksum = none ∧ r.rawPath = none ∧
    r.quarantinePath = none) → ∀ r, w'.doc id = some r → r.checksum = none ∧ r.rawPath = none ∧
      r.quarantinePath = none

variable {sv : Services} {w w' : World} {id : DocumentId}

theorem Gone.spared (h : Gone w id) (hs : Spares id w w') : Gone w' id :=
  ⟨hs.chunks h.chunks, hs.extracted h.extracted, hs.normalized h.normalized, hs.row h.row⟩

theorem Spares.refl (id : DocumentId) (w : World) : Spares id w w :=
  ⟨fun h => h, fun h => h, fun h => h, fun h => h, fun h => h⟩

section Operations

variable {op : Op} {r : Except Exn op.Resp}

/-- The columns of a row after an operation that does not write it. -/
theorem columns_of_apart (hop : Apart id op) (h : Acts sv op w r w') {row' : Document}
    (hr' : w'.doc id = some row') : ∃ row, w.doc id = some row ∧ row'.checksum = row.checksum ∧
      row'.rawPath = row.rawPath ∧ row'.quarantinePath = row.quarantinePath := by
  by_cases hrow : op.row = some id
  · cases op
    case create | updateDocument => exact absurd (Option.some.inj hrow) hop
    case setClassification k tier =>
      obtain ⟨-, rfl⟩ := acts_setClassification.mp h
      rw [setClassification_docs] at hr'
      obtain ⟨row, hr, rfl⟩ := Option.map_eq_some_iff.mp hr'
      refine ⟨row, hr, ?_⟩
      split <;> exact ⟨rfl, rfl, rfl⟩
    case softDelete k =>
      obtain ⟨-, rfl⟩ := acts_softDelete h
      rw [softDelete_docs] at hr'
      obtain ⟨row, hr, rfl⟩ := Option.map_eq_some_iff.mp hr'
      refine ⟨row, hr, ?_⟩
      split <;> simp
    case restore k =>
      obtain ⟨c, hc⟩ := h
      obtain ⟨-, rfl⟩ := Prod.mk.inj hc
      rw [restore_docs] at hr'
      obtain ⟨row, hr, rfl⟩ := Option.map_eq_some_iff.mp hr'
      refine ⟨row, hr, ?_⟩
      split <;> simp
    all_goals cases hrow
  · exact ⟨row', (doc_of_acts h hrow).symm.trans hr', rfl, rfl, rfl⟩

theorem artifacts_of_apart (hop : Apart id op) (h : Acts sv op w r w') :
    w'.extracted (artifactKeyFor id) = w.extracted (artifactKeyFor id) ∧
      w'.normalized (artifactKeyFor id) = w.normalized (artifactKeyFor id) := by
  by_cases hrow : op.row = none
  · obtain ⟨c, hc⟩ := h
    have hw : w' = (effect sv c op w).2 := by rw [hc]
    have hcalled : ∀ u : World, u.extracted (artifactKeyFor id) = w.extracted (artifactKeyFor id) →
        u.normalized (artifactKeyFor id) = w.normalized (artifactKeyFor id) →
        (called c w u).2.extracted (artifactKeyFor id) = w.extracted (artifactKeyFor id) ∧
          (called c w u).2.normalized (artifactKeyFor id) = w.normalized (artifactKeyFor id) := by
      intro u he hn
      rcases called_snd c w u with hu | hu <;> rw [hu]
      · exact ⟨rfl, rfl⟩
      · exact ⟨he, hn⟩
    rw [hw]
    cases op
    case create | updateDocument | setClassification | softDelete | restore => cases hrow
    case putObject b k v => exact hcalled _ rfl rfl
    case putExtraction key v =>
      exact hcalled _ (Function.update_of_ne (Ne.symm hop) _ _) rfl
    case putNormalization key v =>
      exact hcalled _ rfl (Function.update_of_ne (Ne.symm hop) _ _)
    case copyObject | deleteObject | embedDocument =>
      simp only [effect]
      split <;> exact ⟨rfl, rfl⟩
    case audit k event again =>
      have hact : Acts sv (.audit k event again) w r w' := ⟨c, hc⟩
      obtain ⟨-, a, ha⟩ := acts_audit hact
      rw [← hw, ha]
      exact ⟨rfl, rfl⟩
    case persistChunks k passages title =>
      simp only [effect, World.persistChunks]
      split
      · exact ⟨rfl, rfl⟩
      · split <;> exact ⟨rfl, rfl⟩
    case writeEmbeddings vs =>
      simp only [effect, World.writeEmbeddings]
      split
      · exact ⟨rfl, rfl⟩
      · split <;> exact ⟨rfl, rfl⟩
    all_goals exact ⟨rfl, rfl⟩
  · obtain ⟨t, rfl⟩ := acts_of_row h hrow
    exact ⟨rfl, rfl⟩

theorem spares_of_acts (hop : Apart id op) (h : Acts sv op w r w') : Spares id w w' where
  there := by
    intro hd
    obtain ⟨row, hrow⟩ := Option.ne_none_iff_exists'.mp hd
    obtain ⟨row', hrow', -⟩ := purgedAt_of_acts h hrow
    rw [hrow']
    exact Option.some_ne_none row'
  chunks := by
    intro hno
    rcases (chunks_of_acts h).2 with ⟨f, hf, hkeep⟩ | ⟨k, passages, title, rfl, ps, ti, hc, -⟩
    · rw [hf]
      intro c hc
      obtain ⟨c₀, hc₀, rfl⟩ := List.mem_map.mp hc
      rw [(hkeep c₀).2.1]
      exact hno c₀ hc₀
    · rw [hc]
      intro c hc
      rcases List.mem_append.mp hc with hc | hc
      · exact hno c (List.mem_filter.mp hc).1
      · rw [(newChunks_mem hc).1]
        exact hop
  extracted := fun hn => (artifacts_of_apart hop h).1.trans hn
  normalized := fun hn => (artifacts_of_apart hop h).2.trans hn
  row := by
    intro hrow row' hr'
    obtain ⟨row, hr, hc, hp, hq⟩ := columns_of_apart hop h hr'
    rw [hc, hp, hq]
    exact hrow row hr

end Operations

section Erasing

variable {e : Eraser} {fine : Bool} {doc : Document} {x : Eraser ⊕ EraseOutcome}

theorem spares_of_rows (hdocs : w'.documents = w.documents) (hchunks : w'.chunks = w.chunks)
    (hextracted : w.extracted (artifactKeyFor id) = none → w'.extracted (artifactKeyFor id) = none)
    (hnormalized : w.normalized (artifactKeyFor id) = none →
      w'.normalized (artifactKeyFor id) = none) : Spares id w w' := by
  have hdoc : w'.doc id = w.doc id := by rw [World.doc, World.doc, hdocs]
  exact ⟨fun h => by rw [hdoc]; exact h, fun h => by rw [hchunks]; exact h, hextracted,
    hnormalized, fun h => by rw [hdoc]; exact h⟩

/-- Rows that are cleared or left. -/
theorem spares_of_cleared {t : Documents} {g : Document → Document}
    (hget : t.get id = (w.doc id).map g)
    (hg : ∀ r, g r = r ∨ (g r).checksum = none ∧ (g r).quarantinePath = none ∧
      ((g r).rawPath = none ∨ (g r).rawPath = r.rawPath)) :
    Spares id w { w with documents := t } where
  there := by
    intro hd
    obtain ⟨row, hrow⟩ := Option.ne_none_iff_exists'.mp hd
    show t.get id ≠ none
    rw [hget, hrow]
    exact Option.some_ne_none _
  chunks := fun h => h
  extracted := fun h => h
  normalized := fun h => h
  row := by
    intro hrow r' hr'
    have hr'' : t.get id = some r' := hr'
    rw [hget] at hr''
    obtain ⟨r, hr, rfl⟩ := Option.map_eq_some_iff.mp hr''
    rcases hg r with he | ⟨hc, hq, hp | hp⟩
    · rw [he]
      exact hrow r hr
    · exact ⟨hc, hp, hq⟩
    · exact ⟨hc, hp.trans (hrow r hr).2.1, hq⟩

theorem spares_purge (w : World) (k : DocumentId) : Spares id w (w.purge k) := by
  obtain ⟨t, ht⟩ := w.purge_eq k
  have hget : t.get id = _ := (congrArg (fun u : World => u.doc id) ht).symm.trans (w.purge_doc k id)
  rw [ht]
  refine spares_of_cleared hget fun r => ?_
  split
  · exact .inr ⟨rfl, rfl, .inl rfl⟩
  · exact .inl rfl

theorem spares_purgeDuplicatesOf (w : World) (sha256 : Sha256) :
    Spares id w (w.purgeDuplicatesOf sha256) := by
  obtain ⟨t, ht⟩ := w.purgeDuplicatesOf_eq sha256
  have hget : t.get id = _ :=
    (congrArg (fun u : World => u.doc id) ht).symm.trans (w.purgeDuplicatesOf_doc sha256 id)
  rw [ht]
  refine spares_of_cleared hget fun r => ?_
  split
  · exact .inr ⟨rfl, rfl, .inr rfl⟩
  · exact .inl rfl

theorem spares_removeSlot (w : World) (doc : Document) (slot : EraseSlot) :
    Spares id w (w.removeSlot doc slot) := by
  obtain ⟨hd, hc, -⟩ := removeSlot_rows w doc slot
  have hupdate : ∀ {β : Type} (f : ObjectKey → Option β) (k k' : ObjectKey), f k = none →
      Function.update f k' none k = none := by
    intro β f k k' hk
    rw [Function.update_apply]
    split
    · rfl
    · exact hk
  cases slot with
  | raw | quarantine =>
    refine spares_of_rows hd hc (fun h => ?_) fun h => ?_ <;>
      rw [removeSlot, removeObject_eq] <;> exact h
  | extracted => exact spares_of_rows hd hc (hupdate _ _ _) fun h => h
  | normalized => exact spares_of_rows hd hc (fun h => h) (hupdate _ _ _)

/-- A delete brings nothing of any document about. -/
theorem spares_of_moves (h : e.Moves fine w x w') : Spares id w w' := by
  cases h with
  | refused | unclaimed | absent => exact .refl id w
  | claimed => exact spares_of_rows rfl rfl (fun h => h) fun h => h
  | removed doc _ slot => exact spares_removeSlot w doc slot
  | unindexed =>
    exact ⟨fun h => h, fun h c hc => h c (List.mem_filter.mp hc).1, fun h => h, fun h => h,
      fun h => h⟩
  | purged doc => exact spares_purge w doc.id
  | erased doc =>
    split
    · exact .refl id w
    · exact spares_purgeDuplicatesOf w _

theorem job_cancelled (w : World) (id : DocumentId) (j : JobId) :
    Jobs.job (w.jobs.map (w.cancelJob id)) j = (w.jobs.job j).map (w.cancelJob id) := by
  have hid : ∀ r : Job, (w.cancelJob id r).jobId = r.jobId := by
    intro r
    unfold cancelJob
    split <;> rfl
  have hmap : w.jobs.map (w.cancelJob id) = Table.update (fun _ => true) (w.cancelJob id) w.jobs :=
    List.map_congr_left fun _ _ => rfl
  rw [Jobs.job, hmap, Table.lookup_update hid]
  rfl

/-- The jobs that wait for the document are cancelled, or nothing happens to the table. -/
theorem jobs_of_moves (h : e.Moves fine w x w') : w'.nextId = w.nextId ∧
    (w'.jobs = w.jobs ∨ w'.jobs = w.jobs.map (w.cancelJob e.doc.id)) := by
  cases h with
  | refused | unclaimed | absent | unindexed => exact ⟨rfl, .inl rfl⟩
  | claimed => exact ⟨rfl, .inr rfl⟩
  | removed doc _ slot =>
    refine ⟨?_, .inl (removeSlot_rows w doc slot).2.2⟩
    cases slot <;> simp only [removeSlot, removeObject_eq]
  | purged doc =>
    obtain ⟨t, ht⟩ := w.purge_eq doc.id
    rw [ht]
    exact ⟨rfl, .inl rfl⟩
  | erased doc =>
    split
    · exact ⟨rfl, .inl rfl⟩
    · rename_i sha256 _
      obtain ⟨t, ht⟩ := w.purgeDuplicatesOf_eq sha256
      rw [ht]
      exact ⟨rfl, .inl rfl⟩

/-- A row of the jobs after a step of a delete: as it was, or cancelled. -/
theorem job_of_moves (hm : e.Moves fine w x w') {j : JobId} {r' : Job}
    (hr' : w'.jobs.job j = some r') :
    ∃ r, w.jobs.job j = some r ∧ (r' = r ∨ r' = w.cancelJob e.doc.id r) := by
  rcases (jobs_of_moves hm).2 with hj | hj
  · rw [hj] at hr'
    exact ⟨r', hr', .inl rfl⟩
  · rw [hj, job_cancelled] at hr'
    obtain ⟨r, hr, rfl⟩ := Option.map_eq_some_iff.mp hr'
    exact ⟨r, hr, .inr rfl⟩

theorem cancelJob_cases (w : World) (id : DocumentId) (r : Job) :
    (w.cancelJob id r).documentId = r.documentId ∧
      (w.cancelJob id r = r ∧ (r.documentId = id → r.status ≠ .pending) ∨
        (w.cancelJob id r).status = .failed) := by
  unfold cancelJob
  split
  · exact ⟨rfl, .inr rfl⟩
  · rename_i h
    exact ⟨rfl, .inl ⟨rfl, fun hd hp => h ⟨hd, hp⟩⟩⟩

end Erasing

section Pipeline

variable {fleet : Fleet} {s t : RunningState}

theorem Sound.of_fresh (h : s.Fresh) : Sound sv s where
  ids := by
    intro j r hj
    rw [h.jobs] at hj
    cases hj
  items := by
    intro i item hi
    rw [h.current] at hi
    cases hi
  workers := by
    intro i item hi
    rw [h.current] at hi
    cases hi
  uploads := by
    intro d p hp
    rw [h.uploads] at hp
    cases hp

/-- One operation of a program, as the rest of the state sees it. -/
theorem Sound.of_acts {op : Op} {r : Except Exn op.Resp} (hs : Sound sv s)
    (h : Acts sv op s.world r w') :
    (∀ j job, w'.jobs.job j = some job → j < w'.nextId) ∧
      ∀ i item, s.current i = some item → ∃ job, w'.jobs.job item.jobId = some job ∧
        job.documentId = item.documentId := by
  obtain ⟨hkept, hle, hnew⟩ := job_of_acts h
  constructor
  · intro j job hj
    rcases hnew j job hj with hold | ⟨-, hlt⟩
    · exact Nat.lt_of_lt_of_le (hs.ids j job hold) hle
    · exact hlt
  · intro i item hi
    obtain ⟨job, hj, hd⟩ := hs.items i item hi
    exact ⟨job, hkept _ _ hj, hd⟩

theorem sound_of_step {a : RunAction} (hs : Sound sv s) (h : s.step sv fleet a = some t) :
    Sound sv t := by
  cases step_cases h with
  | receive id filename data request mimeType hfree =>
    refine ⟨hs.ids, hs.items, hs.workers, fun d p hp => ?_⟩
    by_cases hd : d = id
    · subst hd
      have hp' : _ = some p := (Function.update_self _ _ s.uploads).symm.trans hp
      obtain rfl := Option.some.inj hp'
      exact receive_uploads _ _ _ _ _
    · exact hs.uploads d p ((Function.update_of_ne hd _ s.uploads).symm.trans hp)
  | upload id luck p q w hp hstep =>
    obtain ⟨op, next, rfl, rfl, rfl⟩ := Program.step_cases hstep
    have hact : Acts sv op s.world _ _ := ⟨luck, rfl⟩
    obtain ⟨hids, hitems⟩ := hs.of_acts hact
    refine ⟨hids, hitems, hs.workers, fun d p' hp' => ?_⟩
    by_cases hd : d = id
    · subst hd
      have hp'' : _ = some p' := (Function.update_self _ _ s.uploads).symm.trans hp'
      obtain rfl := Option.some.inj hp''
      exact (hs.uploads d _ hp).2 _ trivial
    · exact hs.uploads d p' ((Function.update_of_ne hd _ s.uploads).symm.trans hp')
  | endUpload id =>
    refine ⟨hs.ids, hs.items, hs.workers, fun d p hp => ?_⟩
    by_cases hd : d = id
    · subst hd
      cases (Function.update_self _ _ s.uploads).symm.trans hp
    · exact hs.uploads d p ((Function.update_of_ne hd _ s.uploads).symm.trans hp)
  | work i luck item q w hi hstep =>
    obtain ⟨op, next, hrest, rfl, rfl⟩ := Program.step_cases hstep
    have hact : Acts sv op s.world _ _ := ⟨luck, rfl⟩
    obtain ⟨hids, hitems⟩ := hs.of_acts hact
    refine ⟨hids, hitems, fun j item' hj => ?_, hs.uploads⟩
    obtain ⟨stage, hstage⟩ := hs.workers j item' hj
    refine ⟨stage, ?_⟩
    by_cases hij : j = i
    · subst hij
      show (Function.update s.rest j _ j).Sends _ _
      rw [Function.update_self]
      rw [hrest] at hstage
      exact hstage.2 _ ⟨_, _, hact⟩
    · show (Function.update s.rest i _ j).Sends _ _
      rw [Function.update_of_ne hij]
      exact hstage
  | queue _ act q hact hstep =>
    refine ⟨fun j r' hj => ?_, fun i item hi => ?_, fun i item hi => ?_, hs.uploads⟩
    · obtain ⟨r, hr, -⟩ := queue_job (queue_cases hact) hstep hj
      exact hs.ids j r hr
    · rcases @queue_current sv _ _ _ _ _ (queue_cases hact) hstep _ _ hi with
        ⟨hc, -⟩ | ⟨w, row, hrow, rfl, -⟩
      · obtain ⟨r, hr, hd⟩ := hs.items i item hc
        obtain ⟨r', hr', hrow⟩ := QueueState.step_row hstep hr
        exact ⟨r', hr', hrow.same.1.trans hd⟩
      · obtain ⟨r', hr', hstep'⟩ := QueueState.step_row hstep hrow
        exact ⟨r', hr', hstep'.same.1⟩
    · show ∃ stage, (s.started sv a q i).Sends _ _
      rcases queue_current (queue_cases hact) hstep hi with ⟨hc, hrest⟩ | ⟨w, row, -, rfl, hrest⟩
      · rw [hrest]
        exact hs.workers i item hc
      · rw [hrest]
        exact ⟨row.stage, processJob_sends sv row.stage row.documentId⟩

/-- A job of the document that is there after an operation was there before. -/
theorem job_of_apart {op : Op} {r : Except Exn op.Resp} (hop : Apart id op)
    (h : Acts sv op w r w') {j : JobId} {job : Job} (hj : w'.jobs.job j = some job)
    (hd : job.documentId = id) : w.jobs.job j = some job := by
  by_cases he : ∃ k stage, op = .enqueue k stage
  · obtain ⟨k, stage, rfl⟩ := he
    obtain ⟨-, rfl⟩ := acts_enqueue.mp h
    have hj' : Table.lookup Job.jobId (w.jobs ++ [newJob w.nextId k stage w.now]) j = some job := hj
    rw [Table.lookup_append] at hj'
    cases hw : Table.lookup Job.jobId w.jobs j with
    | some job' =>
      rw [hw] at hj'
      exact hw.trans hj'
    | none =>
      rw [hw, Option.none_or, Table.lookup_cons] at hj'
      split at hj'
      · obtain rfl := Option.some.inj hj'
        exact absurd hd hop
      · cases hj'
  · obtain ⟨c, hc⟩ := h
    have hno : ∀ k stage, op ≠ .enqueue k stage := fun k stage hop => he ⟨k, stage, hop⟩
    have hsame : (effect sv c op w).2.jobs = w.jobs := (effect_jobs hno).1
    rw [hc] at hsame
    rwa [hsame] at hj

theorem apart_of_worksOn {stage : JobStage} {d : DocumentId} {op : Op} (h : WorksOn stage d op)
    (hd : d ≠ id) : Apart id op := by
  have hkey : ∀ {key}, key = artifactKeyFor d → key ≠ artifactKeyFor id := by
    rintro _ rfl he
    exact hd (ObjectKey.ofDocument.inj he).1
  cases op
  case updateDocument doc => exact fun he => hd (h.1.symm.trans he)
  case create => exact h.elim
  case persistChunks | enqueue => exact fun he => hd (h.symm.trans he)
  case putExtraction | putNormalization => exact hkey h
  all_goals trivial

theorem apart_of_uploads {d : DocumentId} {op : Op} (h : Uploads d op) (hd : d ≠ id) :
    Apart id op := by
  cases op
  case create doc => exact fun he => hd (h.1.symm.trans he)
  case enqueue => exact fun he => hd (h.symm.trans he)
  case updateDocument | persistChunks | putExtraction | putNormalization => exact h.elim
  all_goals trivial

theorem receive_queuesNothing (filename : String) (data : Bytes) (request : UploadRequest)
    (mimeType : String) :
    QueuesNothing id (UploadService.receive id filename data request mimeType) := by
  refine sends_bind (sends_perform (.inl trivial)) fun _ => ⟨.inr ⟨_, rfl, rfl⟩, fun r hr => ?_⟩
  obtain ⟨e, rfl⟩ := hr _ rfl
  trivial

/-- A row that is there is not created again. -/
theorem create_refused {doc : Document} {r : Except Exn Unit} (hd : w.doc doc.id ≠ none)
    (h : Acts sv (.create doc) w r w') : (∃ e, r = .error e) ∧ w' = w := by
  rcases acts_create.mp h with ⟨-, rfl, rfl⟩ | ⟨t, ht, -, -⟩
  · exact ⟨⟨_, rfl⟩, rfl⟩
  · exact absurd (Documents.insert_fresh ht) hd

theorem purgedAt_of_step {a : RunAction} (h : s.step sv fleet a = some t) {row : Document}
    (hr : s.world.doc id = some row) :
    ∃ row', t.world.doc id = some row' ∧ row'.purgedAt = row.purgedAt := by
  cases step_cases h with
  | upload d luck p q w hp hstep =>
    obtain ⟨op, next, -, -, rfl⟩ := Program.step_cases hstep
    have hact : Acts sv op s.world _ _ := ⟨luck, rfl⟩
    exact purgedAt_of_acts hact hr
  | work i luck item q w hi hstep =>
    obtain ⟨op, next, -, -, rfl⟩ := Program.step_cases hstep
    have hact : Acts sv op s.world _ _ := ⟨luck, rfl⟩
    exact purgedAt_of_acts hact hr
  | receive | endUpload | queue => exact ⟨row, hr, rfl⟩

/-- A job is retried by a worker whose program has failed or says so. -/
theorem retried_rest {a : RunAction} {w : BaseWorker} {message : String}
    (h : s.queueAction fleet a = some (.handleJobRetryOrFail w message)) :
    (∃ m, s.rest w.workerId = .ret (.transient m)) ∨ ∃ e, s.rest w.workerId = .raise e := by
  cases a with
  | finishJob i =>
    simp only [queueAction] at h
    cases hr : s.rest i with
    | ret o =>
      rw [hr] at h
      cases o with
      | completed => cases h
      | permanent m => cases h
      | transient m =>
        obtain ⟨rfl, -⟩ := QueueAction.handleJobRetryOrFail.inj (Option.some.inj h)
        rw [fleet.named, hr]
        exact .inl ⟨m, rfl⟩
    | raise e =>
      rw [hr] at h
      obtain ⟨rfl, -⟩ := QueueAction.handleJobRetryOrFail.inj (Option.some.inj h)
      rw [fleet.named, hr]
      exact .inr ⟨e, rfl⟩
    | call op next =>
      rw [hr] at h
      cases h
  | _ => cases h

/-- A job that has ended stays ended. -/
theorem ended_of_row {a : RunAction} {act : QueueAction} {r r' : Job} {j : JobId}
    (hs : Sound sv s) (hq : Quiet sv s id) (ha : s.queueAction fleet a = some act)
    (hr : s.world.jobs.job j = some r) (h : RowStep s.queue act r r') (hd : r'.documentId = id) :
    r'.status ≠ .pending ∧ r'.status ≠ .running := by
  obtain ⟨hp, hrun⟩ := hq.jobs j r hr (h.same.1.symm.trans hd)
  cases h with
  | kept => exact ⟨hp, hrun⟩
  | claimed _ _ hpending => exact absurd hpending hp
  | renewed _ _ _ hr' => exact absurd hr' hrun
  | completed | failed | exhausted => exact ⟨nofun, nofun⟩
  | retried w item message _ hc hj =>
    obtain ⟨job, hjob, hdoc⟩ := hs.items _ item hc
    have hid : r.jobId = j := Table.key_of_lookup hr
    rw [← hj, hid] at hjob
    obtain rfl := Option.some.inj (hr.symm.trans hjob)
    have hfin := hq.workers _ item hc (hdoc.symm.trans hd)
    rcases retried_rest ha with ⟨m, hm⟩ | ⟨e, he⟩
    · rw [hm] at hfin
      exact absurd rfl (hfin m)
    · rw [he] at hfin
      exact hfin.elim
  | expired _ _ hl | reclaimed _ _ hl =>
    rw [BaseWorker.lapsed, Bool.and_eq_true, decide_eq_true_eq] at hl
    exact absurd hl.1 hrun

theorem picked_pending {q : QueueState} {w : BaseWorker} {row : Job}
    (h : s.queue.step (.pickJob w row.jobId) = some q)
    (hrow : s.world.jobs.job row.jobId = some row) : row.status = .pending := by
  obtain ⟨row', hrow', hp, -⟩ := QueueState.pick_takes h
  obtain rfl := Option.some.inj (hrow.symm.trans hrow')
  exact hp

section Operation

variable {op : Op} {r : Except Exn op.Resp}

theorem quiet_of_upload {d : DocumentId} {next : Except Exn op.Resp → Stage UploadResponse}
    (hs : Sound sv s) (hq : Quiet sv s id) (hp : s.uploads d = some (.call op next))
    (hact : Acts sv op s.world r w') :
    Quiet sv { s with world := w', uploads := Function.update s.uploads d (some (next r)) } id ∧
      Spares id s.world w' := by
  have hsends := hs.uploads d _ hp
  have huploads : ∀ {p}, Function.update s.uploads d (some (next r)) id = some p →
      (d = id → QueuesNothing id (next r)) → QueuesNothing id p := by
    intro p hp' hnext
    by_cases hd : d = id
    · subst hd
      rw [Function.update_self] at hp'
      exact Option.some.inj hp' ▸ hnext rfl
    · rw [Function.update_of_ne (Ne.symm hd)] at hp'
      exact hq.uploads p hp'
  -- an upload that names a document that is there stops at its row
  by_cases hrow : ∃ doc, op = .create doc ∧ doc.id = id
  · obtain ⟨doc, rfl, rfl⟩ := hrow
    obtain rfl : doc.id = d := hsends.1.1
    obtain ⟨⟨e, he⟩, rfl⟩ := create_refused hq.there hact
    exact ⟨⟨hq.there, hq.jobs, hq.workers, fun p hp' =>
      huploads hp' fun _ => (hq.uploads _ hp).2 _ fun _ _ => ⟨e, he⟩⟩, .refl _ _⟩
  · have hop : Apart id op := by
      by_cases hd : d = id
      · subst hd
        exact (hq.uploads _ hp).1.resolve_right hrow
      · exact apart_of_uploads hsends.1 hd
    have hspares := spares_of_acts hop hact
    refine ⟨⟨hspares.there hq.there, fun j job hj hd => ?_, hq.workers, fun p hp' => ?_⟩, hspares⟩
    · exact hq.jobs j job (job_of_apart hop hact hj hd) hd
    · refine huploads hp' fun hd => ?_
      subst hd
      refine (hq.uploads _ hp).2 _ fun doc he => ?_
      subst he
      exact absurd ⟨doc, rfl, hsends.1.1⟩ hrow

theorem quiet_of_work {i : WorkerId} {item : JobItem} {next : Except Exn op.Resp → Stage JobOutcome}
    (hs : Sound sv s) (hq : Quiet sv s id) (hi : s.current i = some item)
    (hrest : s.rest i = .call op next) (hact : Acts sv op s.world r w') :
    Quiet sv { s with world := w', rest := Function.update s.rest i (next r) } id ∧
      Spares id s.world w' := by
  have hfin : item.documentId = id → Finished sv id (.call op next) :=
    fun hd => hrest ▸ hq.workers i item hi hd
  have hop : Apart id op := by
    by_cases hd : item.documentId = id
    · exact (hfin hd).1
    · obtain ⟨stage, hstage⟩ := hs.workers i item hi
      rw [hrest] at hstage
      exact apart_of_worksOn hstage.1 hd
  have hspares := spares_of_acts hop hact
  refine ⟨⟨hspares.there hq.there, fun j job hj hd => ?_, fun j item' hj hd => ?_, hq.uploads⟩,
    hspares⟩
  · exact hq.jobs j job (job_of_apart hop hact hj hd) hd
  · by_cases hij : j = i
    · subst hij
      obtain rfl := Option.some.inj (hi.symm.trans hj)
      show Finished sv id (Function.update s.rest j _ j)
      rw [Function.update_self]
      exact (hfin hd).2 _ ⟨_, _, hact⟩
    · show Finished sv id (Function.update s.rest i _ j)
      rw [Function.update_of_ne hij]
      exact hq.workers j item' hj hd

end Operation

theorem quiet_of_queue {a : RunAction} {act : QueueAction} {q : QueueState} (hs : Sound sv s)
    (hq : Quiet sv s id) (hact : s.queueAction fleet a = some act)
    (hstep : s.queue.step act = some q) :
    Quiet sv { s.withQueue q with rest := s.started sv a q } id where
  there := hq.there
  jobs := by
    intro j r' hj hd
    obtain ⟨r, hr, hrow⟩ := queue_job (queue_cases hact) hstep hj
    exact ended_of_row hs hq hact hr hrow hd
  workers := by
    intro i item hi hd
    show Finished sv id (s.started sv a q i)
    rcases step_current hstep hi with ⟨hc, -⟩ | ⟨w, row, rfl, -, -, hrow, rfl⟩
    · rw [started_of_current (queue_cases hact) hstep hc]
      exact hq.workers i item hc hd
    · exact absurd (picked_pending hstep hrow) (hq.jobs _ _ hrow hd).1
  uploads := hq.uploads

/-- While nobody has anything left to do to a document, no step gives anybody something. -/
theorem quiet_of_step {a : RunAction} (hs : Sound sv s) (hq : Quiet sv s id)
    (h : s.step sv fleet a = some t) : Quiet sv t id ∧ Spares id s.world t.world := by
  cases step_cases h with
  | receive d filename data request mimeType hfree =>
    refine ⟨⟨hq.there, hq.jobs, hq.workers, fun p hp => ?_⟩, .refl id _⟩
    by_cases hd : d = id
    · subst hd
      have hp' : _ = some p := (Function.update_self _ _ s.uploads).symm.trans hp
      obtain rfl := Option.some.inj hp'
      exact receive_queuesNothing _ _ _ _
    · exact hq.uploads p ((Function.update_of_ne (Ne.symm hd) _ s.uploads).symm.trans hp)
  | endUpload d =>
    refine ⟨⟨hq.there, hq.jobs, hq.workers, fun p hp => ?_⟩, .refl id _⟩
    by_cases hd : d = id
    · subst hd
      cases (Function.update_self _ _ s.uploads).symm.trans hp
    · exact hq.uploads p ((Function.update_of_ne (Ne.symm hd) _ s.uploads).symm.trans hp)
  | upload d luck p q w hp hstep =>
    obtain ⟨op, next, rfl, rfl, rfl⟩ := Program.step_cases hstep
    exact quiet_of_upload hs hq hp ⟨luck, rfl⟩
  | work i luck item q w hi hstep =>
    obtain ⟨op, next, hrest, rfl, rfl⟩ := Program.step_cases hstep
    exact quiet_of_work hs hq hi hrest ⟨luck, rfl⟩
  | queue _ act q hact hstep =>
    exact ⟨quiet_of_queue hs hq hact hstep, spares_of_rows rfl rfl (fun h => h) fun h => h⟩

end Pipeline

section Attempt

variable {luck : EraseLuck} {doc : Document}

theorem alone_indexed (luck : EraseLuck) (doc : Document) (w : World) :
    (Eraser.removing doc true []).Alone luck w
      (let w := { w with chunks := w.chunks.filter fun c => c.documentId ≠ doc.id }
      let w := w.purge doc.id
      match doc.checksum with
      | none => (.erased, w)
      | some sha256 => (.erased, w.purgeDuplicatesOf sha256)) := by
  refine .next rfl (.next rfl ?_)
  cases hsha : doc.checksum with
  | none | some sha256 =>
    refine .last ?_
    rw [Eraser.step, hsha]
    rfl

theorem alone_removing {claimed : Bool} {slots : List EraseSlot} {w w' : World}
    {stop : Option EraseSlot} {end' : EraseOutcome × World}
    (hr : removeObjects luck doc slots w = (stop, w'))
    (hend : stop = none → (Eraser.removing doc claimed []).Alone luck w' end')
    (hslot : ∀ slot, stop = some slot → end' = (.storageEraseFailed slot, w')) :
    (Eraser.removing doc claimed slots).Alone luck w end' := by
  induction slots generalizing w with
  | nil =>
    obtain ⟨rfl, rfl⟩ := Prod.mk.inj hr
    exact hend rfl
  | cons slot slots ih =>
    have hfine : (Eraser.removing doc claimed (slot :: slots)).fine luck = luck.deletes slot := rfl
    rw [removeObjects] at hr
    by_cases hpresent : w.present doc slot = true
    · rw [if_pos hpresent] at hr
      by_cases hdeletes : luck.deletes slot = true
      · rw [if_pos hdeletes] at hr
        exact .next (by rw [Eraser.step, if_pos hpresent, hfine, if_pos hdeletes]) (ih hr)
      · rw [if_neg hdeletes] at hr
        obtain ⟨rfl, rfl⟩ := Prod.mk.inj hr
        obtain rfl := hslot slot rfl
        exact .last (by rw [Eraser.step, if_pos hpresent, hfine, if_neg hdeletes])
    · rw [if_neg hpresent] at hr
      exact .next (by rw [Eraser.step, if_neg hpresent]) (ih hr)

/-- With nobody beside it, a delete does what the erasure of the row does. -/
theorem alone_eraseAttempt (luck : EraseLuck) (w : World) (doc : Document) :
    (Eraser.loaded doc).Alone luck w (w.eraseAttempt luck doc) := by
  have hfine : (Eraser.loaded doc).fine luck = luck.auditWritten := rfl
  rw [eraseAttempt]
  by_cases hbusy : w.busy doc.id = true
  · rw [if_pos hbusy]
    exact .last (by rw [Eraser.step, if_pos hbusy])
  · rw [if_neg hbusy]
    by_cases haudit : luck.auditWritten = true
    · refine .next (by rw [Eraser.step, if_neg hbusy, hfine, if_pos haudit]) ?_
      simp only [haudit, if_true]
      generalize hr : removeObjects luck doc eraseSlots _ = r
      obtain ⟨stop, w'⟩ := r
      refine alone_removing hr (fun hnone => ?_) fun slot hsome => ?_
      · subst hnone
        exact alone_indexed luck doc w'
      · subst hsome
        rfl
    · refine .next (by rw [Eraser.step, if_neg hbusy, hfine, if_neg haudit]) ?_
      simp only [haudit, if_false, Bool.false_eq_true]
      generalize hr : removeObjects luck doc eraseSlots w = r
      obtain ⟨stop, w'⟩ := r
      refine alone_removing hr (fun hnone => ?_) fun slot hsome => ?_
      · subst hnone
        exact .last rfl
      · subst hsome
        rfl

end Attempt

/-- What a delete that is going on has brought about. -/
def Underway (sv : Services) (s : RunningState) : Eraser → Prop
  | .loaded doc => Unpurged s.world doc.id
  | .removing doc claimed slots => Unpurged s.world doc.id ∧
      (claimed = true → Quiet sv s doc.id ∧ Cleared s.world doc slots)
  | .unindexed doc => Unpurged s.world doc.id ∧ Quiet sv s doc.id ∧ Cleared s.world doc [] ∧
      ∀ c ∈ s.world.chunks, c.documentId ≠ doc.id
  | .purged doc => Quiet sv s doc.id ∧ Gone s.world doc.id

structure ErasingInv (sv : Services) (s : ErasingState) : Prop where
  sound : Sound sv s.running
  underway : ∀ e, s.eraser = some e → Underway sv s.running e
  erased : ∀ id ∈ s.erased, Quiet sv s.running id ∧ Gone s.world id

section Deletes

variable {fleet : Fleet} {s t : RunningState} {e : Eraser} {doc : Document} {fine : Bool}
  {slot : EraseSlot} {slots : List EraseSlot} {x : Eraser ⊕ EraseOutcome}

theorem Cleared.spared (h : Cleared w doc slots) (hs : Spares doc.id w w') :
    Cleared w' doc slots := by
  intro slot hslot
  refine (h slot hslot).imp_right fun hnone => ?_
  cases slot with
  | raw | quarantine => simp at hslot
  | extracted => simpa [present] using hs.extracted (by simpa [present] using hnone)
  | normalized => simpa [present] using hs.normalized (by simpa [present] using hnone)

theorem Cleared.removed (h : Cleared w doc (slot :: slots)) :
    Cleared (w.removeSlot doc slot) doc slots := by
  intro slot' hslot
  rw [present_removeSlot]
  rcases h slot' hslot with hmem | hnone
  · rcases List.mem_cons.mp hmem with rfl | hmem
    · simp
    · exact .inl hmem
  · simp [hnone]

theorem Cleared.absent (h : Cleared w doc (slot :: slots)) (ha : w.present doc slot = false) :
    Cleared w doc slots := by
  intro slot' hslot
  rcases h slot' hslot with hmem | hnone
  · rcases List.mem_cons.mp hmem with rfl | hmem
    · exact .inr ha
    · exact .inl hmem
  · exact .inr hnone

/-- The purge of a row that has not been purged leaves nothing of the document. -/
theorem gone_of_purge (hrow : Unpurged w id) (hchunks : ∀ c ∈ w.chunks, c.documentId ≠ id)
    (hextracted : w.extracted (artifactKeyFor id) = none)
    (hnormalized : w.normalized (artifactKeyFor id) = none) : Gone (w.purge id) id := by
  have hspares : Spares id w (w.purge id) := spares_purge w id
  refine ⟨hspares.chunks hchunks, hspares.extracted hextracted, hspares.normalized hnormalized,
    fun r hr => ?_⟩
  obtain ⟨row, hd, hp⟩ := hrow
  rw [purge_doc, hd, Option.map_some, if_pos ⟨rfl, hp⟩] at hr
  obtain rfl := Option.some.inj hr
  exact ⟨rfl, rfl, rfl⟩

theorem Quiet.of_moves (hq : Quiet sv s id) (hm : e.Moves fine s.world x w') :
    Quiet sv { s with world := w' } id where
  there := (spares_of_moves hm).there hq.there
  jobs := by
    intro j r' hj hd
    obtain ⟨r, hr, he⟩ := job_of_moves hm hj
    obtain ⟨-, ⟨hsame, -⟩ | hfailed⟩ := cancelJob_cases s.world e.doc.id r
    · obtain rfl : r' = r := he.elim (fun h => h) (·.trans hsame)
      exact hq.jobs j r' hr hd
    · rcases he with rfl | rfl
      · exact hq.jobs j r' hr hd
      · rw [hfailed]
        exact ⟨(fun h => by cases h), (fun h => by cases h)⟩
  workers := hq.workers
  uploads := hq.uploads

theorem Sound.of_moves (hs : Sound sv s) (hm : e.Moves fine s.world x w') :
    Sound sv { s with world := w' } where
  ids := by
    intro j r' hj
    obtain ⟨r, hr, -⟩ := job_of_moves hm hj
    show j < w'.nextId
    rw [(jobs_of_moves hm).1]
    exact hs.ids j r hr
  items := by
    intro i item hi
    obtain ⟨r, hr, hd⟩ := hs.items i item hi
    rcases (jobs_of_moves hm).2 with hj | hj
    · exact ⟨r, hj ▸ hr, hd⟩
    · refine ⟨_, ?_, (cancelJob_cases s.world e.doc.id r).1.trans hd⟩
      show Jobs.job w'.jobs _ = _
      rw [hj, job_cancelled, hr]
      rfl
  workers := hs.workers
  uploads := hs.uploads

/-- With its jobs cancelled and nobody at work, a document is left alone. -/
theorem quiet_of_claim (hrow : Unpurged s.world id) (hfree : s.world.busy id = false)
    (hworkers : ∀ i item, s.current i = some item → item.documentId = id → Finished sv id (s.rest i))
    (huploads : ∀ p, s.uploads id = some p → QueuesNothing id p)
    (hdocs : w'.documents = s.world.documents)
    (hjobs : w'.jobs = s.world.jobs.map (s.world.cancelJob id)) :
    Quiet sv { s with world := w' } id where
  there := by
    obtain ⟨row, hd, -⟩ := hrow
    show Documents.get w'.documents id ≠ none
    rw [hdocs, show s.world.documents.get id = some row from hd]
    exact Option.some_ne_none row
  jobs := by
    intro j r' hj hd
    have hj' : Jobs.job w'.jobs j = some r' := hj
    rw [hjobs, job_cancelled] at hj'
    obtain ⟨r, hr, rfl⟩ := Option.map_eq_some_iff.mp hj'
    obtain ⟨-, ⟨hsame, hpending⟩ | hfailed⟩ := cancelJob_cases s.world id r
    · rw [hsame] at hd ⊢
      refine ⟨hpending hd, fun hrun => ?_⟩
      have hmem : r ∈ s.world.jobs := Table.mem_of_lookup hr
      rw [World.busy, List.any_eq_false] at hfree
      exact hfree r hmem (by simp [hd, hrun])
    · rw [hfailed]
      exact ⟨(fun h => by cases h), (fun h => by cases h)⟩
  workers := hworkers
  uploads := huploads

theorem Unpurged.of_documents (hu : Unpurged w id) (h : w'.documents = w.documents) :
    Unpurged w' id := by
  obtain ⟨row, hd, hp⟩ := hu
  exact ⟨row, by rw [World.doc, h]; exact hd, hp⟩

/-- One step of a delete: what it has brought about, or, where it is through, that nothing of
the document is left. -/
theorem underway_of_moves (hu : Underway sv s e) (hm : e.Moves fine s.world x w')
    (hclaim : fine = true → ∀ doc, e = .loaded doc → s.world.busy doc.id = false →
      NobodyAtWork sv s doc.id) :
    (∀ e', x = .inl e' → Underway sv { s with world := w' } e') ∧
      (x = .inr .erased → Quiet sv { s with world := w' } e.doc.id ∧ Gone w' e.doc.id) := by
  have hspares : Spares e.doc.id s.world w' := spares_of_moves hm
  have hgoes : ∀ {e'}, Underway sv { s with world := w' } e' →
      (∀ e'', (.inl e' : Eraser ⊕ EraseOutcome) = .inl e'' →
        Underway sv { s with world := w' } e'') ∧
      ((.inl e' : Eraser ⊕ EraseOutcome) = .inr .erased →
        Quiet sv { s with world := w' } e.doc.id ∧ Gone w' e.doc.id) :=
    fun hu' => ⟨fun _ he => Sum.inl.inj he ▸ hu', fun he => (Sum.inl_ne_inr he).elim⟩
  have hm' := hm
  cases hm with
  | refused _ o ho =>
    exact ⟨fun _ he => (Sum.inr_ne_inl he).elim, fun h => absurd (Sum.inr.inj h) ho⟩
  | claimed doc a hfine hfree =>
    obtain ⟨hworkers, huploads⟩ := hclaim hfine doc rfl hfree
    refine hgoes ⟨hu, fun _ => ⟨quiet_of_claim hu hfree hworkers huploads rfl rfl, ?_⟩⟩
    intro slot hslot
    exact .inl (by cases slot <;> decide)
  | unclaimed doc => exact hgoes ⟨hu, nofun⟩
  | removed doc claimed slot slots =>
    refine hgoes ⟨hu.1.of_documents (removeSlot_rows s.world doc slot).1, fun hc => ?_⟩
    exact ⟨(hu.2 hc).1.of_moves hm', (hu.2 hc).2.removed⟩
  | absent doc claimed slot slots h =>
    exact hgoes ⟨hu.1, fun hc => ⟨(hu.2 hc).1, (hu.2 hc).2.absent h⟩⟩
  | unindexed doc =>
    obtain ⟨hrow, hclaimed⟩ := hu
    obtain ⟨hq, hcleared⟩ := hclaimed rfl
    refine hgoes ⟨hrow, hq.of_moves hm', hcleared, fun c hc => ?_⟩
    simpa using (List.mem_filter.mp hc).2
  | purged doc =>
    obtain ⟨hrow, hq, hcleared, hchunks⟩ := hu
    have hnone : ∀ slot ∈ [EraseSlot.extracted, .normalized], s.world.present doc slot = false :=
      fun slot hslot => (hcleared slot hslot).resolve_left nofun
    refine hgoes ⟨hq.of_moves hm', gone_of_purge hrow hchunks ?_ ?_⟩
    · simpa [present] using hnone .extracted (by simp)
    · simpa [present] using hnone .normalized (by simp)
  | erased doc =>
    exact ⟨fun _ he => (Sum.inr_ne_inl he).elim, fun _ => ⟨hu.1.of_moves hm', hu.2.spared hspares⟩⟩

theorem Unpurged.of_step {a : RunAction} (hu : Unpurged s.world id)
    (h : s.step sv fleet a = some t) : Unpurged t.world id := by
  obtain ⟨row, hd, hp⟩ := hu
  obtain ⟨row', hd', hp'⟩ := purgedAt_of_step h hd
  exact ⟨row', hd', hp'.trans hp⟩

theorem underway_of_step {a : RunAction} (hs : Sound sv s) (hu : Underway sv s e)
    (h : s.step sv fleet a = some t) : Underway sv t e := by
  cases e with
  | loaded doc => exact hu.of_step h
  | removing doc claimed slots =>
    refine ⟨hu.1.of_step h, fun hc => ?_⟩
    obtain ⟨hq, hspares⟩ := quiet_of_step hs (hu.2 hc).1 h
    exact ⟨hq, (hu.2 hc).2.spared hspares⟩
  | unindexed doc =>
    obtain ⟨hrow, hquiet, hcleared, hchunks⟩ := hu
    obtain ⟨hq, hspares⟩ := quiet_of_step hs hquiet h
    exact ⟨hrow.of_step h, hq, hcleared.spared hspares, hspares.chunks hchunks⟩
  | purged doc =>
    obtain ⟨hq, hspares⟩ := quiet_of_step hs hu.1 h
    exact ⟨hq, hu.2.spared hspares⟩

end Deletes

section Runs

open Transition

variable {fleet : Fleet} {s t : ErasingState}

theorem erasingInv_of_step {a : ErasingAction} (hi : ErasingInv sv s) (hok : ClaimsAlone sv s a)
    (h : s.step sv fleet a = some t) : ErasingInv sv t := by
  cases a with
  | run a =>
    obtain ⟨running, hrun, rfl⟩ := Option.map_eq_some_iff.mp h
    refine ⟨sound_of_step hi.sound hrun, fun e he => underway_of_step hi.sound (hi.underway e he) hrun,
      fun id hid => ?_⟩
    obtain ⟨hq, hspares⟩ := quiet_of_step hi.sound (hi.erased id hid).1 hrun
    exact ⟨hq, (hi.erased id hid).2.spared hspares⟩
  | deleteDocument id =>
    simp only [ErasingState.step] at h
    split at h
    · rename_i doc _ hdoc
      split at h
      · rename_i hp
        obtain rfl := Option.some.inj h
        refine ⟨hi.sound, fun e he => ?_, hi.erased⟩
        obtain rfl := Option.some.inj he
        have hid : doc.id = id := Documents.get_id hdoc
        exact ⟨doc, by rw [hid]; exact hdoc, hp⟩
      · cases h
    · cases h
  | eraseDocument fine =>
    obtain ⟨e, he, ht⟩ := Option.map_eq_some_iff.mp h
    have hm := e.step_moves fine s.world
    dsimp only at ht
    generalize (e.step fine s.world).1 = x at hm ht
    generalize (e.step fine s.world).2 = w' at hm ht
    have hmoved := underway_of_moves (hi.underway e he) hm fun hfine doc hdoc hfree => by
      subst hfine
      exact hok doc (hdoc ▸ he) hfree
    have hsound := hi.sound.of_moves hm
    have herased : ∀ id ∈ s.erased, Quiet sv { s.running with world := w' } id ∧ Gone w' id :=
      fun id hid => ⟨(hi.erased id hid).1.of_moves hm,
        (hi.erased id hid).2.spared (spares_of_moves hm)⟩
    cases x with
    | inl e' =>
      subst ht
      refine ⟨hsound, fun e₀ he₀ => ?_, herased⟩
      obtain rfl := Option.some.inj he₀
      exact hmoved.1 e' rfl
    | inr o =>
      cases o with
      | erased =>
        subst ht
        refine ⟨hsound, fun _ he => (Option.some_ne_none _ he.symm).elim, fun id hid => ?_⟩
        rcases List.mem_cons.mp hid with rfl | hid
        · exact hmoved.2 rfl
        · exact herased id hid
      | documentBusy | storageEraseFailed | databaseError =>
        subst ht
        exact ⟨hsound, fun _ he => (Option.some_ne_none _ he.symm).elim, herased⟩

def freshDeletes : ErasingState where
  running := freshState
  eraser := none
  erased := []

theorem freshDeletes_fresh : freshDeletes.Fresh := ⟨freshState_fresh, rfl, rfl⟩

/-- The document is chunked and its lease has lapsed; the reaper has returned the job, and the
delete goes through. -/
def beforeWake : List ErasingAction :=
  (beforePersist ++ [RunAction.tick 61, .reapStuckJobs 0]).map .run ++
    .deleteDocument 0 :: List.replicate 8 (.eraseDocument true)

/-- The worker writes its passages after all. -/
def wakeRun : List ErasingAction := beforeWake ++ [.run (.work 3 .fine)]

/-- The delete takes no document. -/
def takesNone (s : ErasingState) : ErasingAction → Bool
  | .eraseDocument true =>
    match s.eraser with
    | some (.loaded _) => false
    | _ => true
  | _ => true

theorem claimsAlone_of_takesNone (s : ErasingState) (a : ErasingAction)
    (h : takesNone s a = true) : ClaimsAlone sv s a := by
  cases a with
  | eraseDocument fine =>
    cases fine with
    | false => trivial
    | true =>
      intro doc hdoc
      simp only [takesNone, hdoc] at h
      cases h
  | run | deleteDocument => trivial

def deletesTo (as : List ErasingAction) : ErasingState :=
  finalState (ErasingState.step plainServices plainFleet) freshDeletes as

/-- A document that is scanned and extracted, and a delete that is about to take it. -/
def beforeClaim : List ErasingAction :=
  (uploadRun ++ jobRun 0 0 10 ++ jobRun 1 1 6).map .run ++ [.deleteDocument 0]

/-- The delete takes the document with no worker on a job. -/
theorem claim_alone : ClaimsAlone plainServices (deletesTo beforeClaim) (.eraseDocument true) := by
  intro doc hdoc _
  have hid : (deletesTo beforeClaim).eraser.map (fun e => e.doc.id) = some 0 := by decide +kernel
  rw [hdoc] at hid
  have hzero : doc.id = 0 := Option.some.inj hid
  constructor
  · intro i item hi
    have hcur : ∃ a b, (deletesTo beforeClaim).running.current = Function.update (Function.update
        (Function.update (Function.update (fun _ => none) 0 (some a)) 0 none) 1 (some b)) 1 none :=
      ⟨_, _, rfl⟩
    obtain ⟨a, b, hcur⟩ := hcur
    rw [hcur] at hi
    simp at hi
  · intro p hp
    rw [hzero] at hp
    have hnone : (deletesTo beforeClaim).running.uploads 0 = none := rfl
    rw [hnone] at hp
    cases hp

end Runs

end KnowledgeBase
