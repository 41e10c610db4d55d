import KnowledgeBase.SafeOperations
import KnowledgeBase.Searchable
import KnowledgeBase.StageRows

/-! Jobs for documents that never got one. Queueing them twice queues nothing more, and once the
services have been stopped it makes up for all that their crashes have left undone. -/

namespace KnowledgeBase

open RunningState Transition

structure BackfillArgs where
  stage : JobStage
  status : DocumentStatus
  dryRun : Bool
  limit : Option Nat
  reset : Bool
  mimes : List String
  documentIds : List DocumentId
  method : Option String

/-- The status a document must be in for each stage to accept it. -/
def stageEntryStatus : JobStage → DocumentStatus
  | .scan => .quarantined
  | .extract => .validated
  | .normalize => .extracted
  | .chunk => .awaitingClassification
  | .embed => .chunked

/-- PENDING or RUNNING, of the stage and for the document. -/
def liveJob (stage : JobStage) (id : DocumentId) (r : Job) : Bool :=
  r.stage = stage && (r.status = .pending || r.status = .running) && r.documentId = id

def resetRow (stage : JobStage) (row : Document) : Document :=
  { row with status := stageEntryStatus stage, rejectionReason := none }

/-- The rows are updated one by one, and one that the index refuses ends the transaction. -/
def resetDocs (stage : JobStage) : List Document → Documents → Option Documents
  | [], t => some t
  | doc :: docs, t => (t.modify doc.id (resetRow stage)).bind (resetDocs stage docs)

def World.enqueueAll (stage : JobStage) (docs : List Document) (w : World) : World :=
  docs.foldl (fun w doc => w.enqueue doc.id stage) w

namespace BackfillArgs

def selects (b : BackfillArgs) (w : World) (doc : Document) : Bool :=
  doc.status = b.status && doc.deletedAt.isNone && !w.jobs.any (liveJob b.stage doc.id) &&
    (b.mimes.isEmpty || b.mimes.contains doc.mimeType) &&
    (b.documentIds.isEmpty || b.documentIds.contains doc.id) &&
    b.method.all fun method => method = "" || doc.extractionMethod = some method

def docs (b : BackfillArgs) (w : World) : List Document :=
  let found := w.documents.rows.filter (b.selects w)
  match b.limit with
  | none | some 0 => found
  | some limit => found.take limit

/-- A stage with its usual status and no more than that. -/
def plain (stage : JobStage) : BackfillArgs where
  stage
  status := stageEntryStatus stage
  dryRun := false
  limit := none
  reset := false
  mimes := []
  documentIds := []
  method := none

end BackfillArgs

/-- The number of jobs queued, or the exception that leaves everything as it was. -/
def backfill (b : BackfillArgs) (w : World) : Option (Nat × World) :=
  if (b.docs w).isEmpty || b.dryRun then some (0, w)
  else
    (if b.reset then resetDocs b.stage (b.docs w) w.documents else some w.documents).map fun t =>
      ((b.docs w).length, World.enqueueAll b.stage (b.docs w) { w with documents := t })

/-- One call after the other, whether each goes through or not. -/
def backfills (bs : List BackfillArgs) (w : World) : World :=
  bs.foldl (fun w b => ((backfill b w).map Prod.snd).getD w) w

variable {b : BackfillArgs} {stage : JobStage} {w w' : World} {n : Nat}

section Queueing

@[simp] theorem enqueueAll_documents (docs : List Document) (w : World) :
    (w.enqueueAll stage docs).documents = w.documents := by
  induction docs generalizing w with
  | nil => rfl
  | cons doc docs ih => exact ih _

/-- A job for each of the documents is put behind the others. -/
theorem enqueueAll_jobs (stage : JobStage) (docs : List Document) (w : World) :
    ∃ added, (w.enqueueAll stage docs).jobs = w.jobs ++ added ∧
      added.map Job.documentId = docs.map Document.id ∧
      ∀ r ∈ added, r.stage = stage ∧ r.status = .pending := by
  induction docs generalizing w with
  | nil => exact ⟨[], (List.append_nil _).symm, rfl, List.forall_mem_nil _⟩
  | cons doc docs ih =>
    obtain ⟨added, hjobs, hids, hall⟩ := ih (w.enqueue doc.id stage)
    refine ⟨newJob w.nextId doc.id stage w.now :: added, ?_, ?_, ?_⟩
    · rw [World.enqueueAll, List.foldl_cons]
      exact hjobs.trans (List.append_assoc _ _ _)
    · rw [List.map_cons, List.map_cons, hids]
      rfl
    · exact List.forall_mem_cons.mpr ⟨⟨rfl, rfl⟩, hall⟩

theorem docs_sublist (b : BackfillArgs) (w : World) :
    (b.docs w).Sublist (w.documents.rows.filter (b.selects w)) := by
  rw [BackfillArgs.docs]
  split
  · exact List.Sublist.refl _
  · exact List.Sublist.refl _
  · exact List.take_sublist _ _

theorem docs_ids_nodup (b : BackfillArgs) (w : World) : ((b.docs w).map Document.id).Nodup :=
  w.documents.ids.sublist (((docs_sublist b w).trans List.filter_sublist).map _)

theorem docs_mem {doc : Document} (h : doc ∈ b.docs w) :
    doc ∈ w.documents.rows ∧ b.selects w doc = true :=
  List.mem_filter.mp ((docs_sublist b w).subset h)

theorem mem_docs {doc : Document} (hlimit : b.limit = none) (hrow : doc ∈ w.documents.rows)
    (hsel : b.selects w doc = true) : doc ∈ b.docs w := by
  rw [BackfillArgs.docs, hlimit]
  exact List.mem_filter.mpr ⟨hrow, hsel⟩

theorem selected_waits {doc : Document} (h : b.selects w doc = true) :
    w.jobs.any (liveJob b.stage doc.id) = false := by
  simp only [BackfillArgs.selects, Bool.and_eq_true, Bool.not_eq_true'] at h
  exact h.1.1.1.2

theorem selects_of_waits {doc : Document} (hw : w.jobs.any (liveJob b.stage doc.id) = false)
    (h : b.selects w' doc = true) : b.selects w doc = true := by
  have hw' := selected_waits h
  rw [BackfillArgs.selects, hw'] at h
  rw [BackfillArgs.selects, hw]
  exact h

/-- Everything a call can do: nothing, or a job for each document selected. -/
theorem backfill_cases (h : backfill b w = some (n, w')) :
    (n = 0 ∧ w' = w ∧ (b.docs w = [] ∨ b.dryRun = true)) ∨
      ∃ t, (if b.reset then resetDocs b.stage (b.docs w) w.documents else some w.documents) =
          some t ∧
        n = (b.docs w).length ∧
        w' = World.enqueueAll b.stage (b.docs w) { w with documents := t } := by
  rw [backfill] at h
  split at h
  next hc =>
    obtain ⟨rfl, rfl⟩ := Prod.mk.inj (Option.some.inj h)
    rw [Bool.or_eq_true, List.isEmpty_iff] at hc
    exact .inl ⟨rfl, rfl, hc⟩
  next =>
    obtain ⟨t, ht, he⟩ := Option.map_eq_some_iff.mp h
    obtain ⟨rfl, rfl⟩ := Prod.mk.inj he
    exact .inr ⟨t, ht, rfl, rfl⟩

theorem enqueueAll_live {docs : List Document} {doc : Document} (h : doc ∈ docs) :
    (w.enqueueAll stage docs).jobs.any (liveJob stage doc.id) = true := by
  obtain ⟨added, hjobs, hids, hall⟩ := enqueueAll_jobs stage docs w
  have hid : doc.id ∈ added.map Job.documentId := hids ▸ List.mem_map_of_mem h
  obtain ⟨r, hr, hd⟩ := List.mem_map.mp hid
  obtain ⟨hst, hpending⟩ := hall r hr
  refine List.any_eq_true.mpr ⟨r, hjobs ▸ List.mem_append_right _ hr, ?_⟩
  simp [liveJob, hst, hpending, hd]

theorem enqueueAll_any {docs : List Document} {p : Job → Bool} (h : w.jobs.any p = true) :
    (w.enqueueAll stage docs).jobs.any p = true := by
  obtain ⟨added, hjobs, -⟩ := enqueueAll_jobs stage docs w
  rw [hjobs, List.any_append, h, Bool.true_or]

end Queueing

section Repeated

theorem resetDocs_get {docs : List Document} {t t' : Documents}
    (h : resetDocs stage docs t = some t') (k : DocumentId) :
    t'.get k = (t.get k).map fun r =>
      if r.id ∈ docs.map Document.id then resetRow stage r else r := by
  induction docs generalizing t with
  | nil =>
    obtain rfl := Option.some.inj h
    simp
  | cons doc docs ih =>
    obtain ⟨u, hu, hrest⟩ := Option.bind_eq_some_iff.mp h
    rw [ih hrest, Documents.modify_get hu, Option.map_map]
    refine Option.map_congr fun r _ => ?_
    by_cases hr : r.id = doc.id <;> by_cases hd : doc.id ∈ docs.map Document.id <;>
      simp_all [resetRow]

/-- A row after the call is one that was there, reset only if a job was queued for it. -/
theorem row_of_backfill {t : Documents}
    (ht : (if b.reset then resetDocs b.stage (b.docs w) w.documents else some w.documents) = some t)
    {row : Document} (hrow : row ∈ t.rows) :
    row.id ∈ (b.docs w).map Document.id ∨ row ∈ w.documents.rows := by
  split at ht
  · have hget := resetDocs_get ht row.id
    rw [Documents.get_of_mem hrow] at hget
    obtain ⟨r, hr, he⟩ := Option.map_eq_some_iff.mp hget.symm
    split at he
    next hmem => exact .inl (he ▸ hmem)
    next => exact .inr (he ▸ Documents.mem_of_get hr)
  · obtain rfl := Option.some.inj ht
    exact .inr hrow

/-- A call without a limit leaves nothing for the same call to do. -/
theorem backfill_again (hlimit : b.limit = none) (h : backfill b w = some (n, w')) :
    backfill b w' = some (0, w') := by
  have hnothing : ((b.docs w').isEmpty || b.dryRun) = true := by
    rcases backfill_cases h with ⟨-, rfl, hc⟩ | ⟨t, ht, -, rfl⟩
    · rw [Bool.or_eq_true, List.isEmpty_iff]
      exact hc
    · rw [Bool.or_eq_true, List.isEmpty_iff, List.eq_nil_iff_forall_not_mem]
      refine .inl fun row hrow => ?_
      obtain ⟨hmem, hsel⟩ := docs_mem hrow
      rw [enqueueAll_documents] at hmem
      have hwaits := selected_waits hsel
      rcases row_of_backfill ht hmem with hid | hold
      · obtain ⟨doc, hdoc, hid⟩ := List.mem_map.mp hid
        rw [← hid, enqueueAll_live hdoc] at hwaits
        cases hwaits
      · have hbefore : w.jobs.any (liveJob b.stage row.id) = false :=
          Bool.eq_false_iff.mpr fun hany => nomatch hwaits.symm.trans (enqueueAll_any hany)
        rw [enqueueAll_live (mem_docs hlimit hold (selects_of_waits hbefore hsel))] at hwaits
        cases hwaits
  rw [backfill, if_pos hnothing]

/-- The jobs of a stage that are still to do for a document. -/
def World.liveCount (w : World) (stage : JobStage) (id : DocumentId) : Nat :=
  w.jobs.countP (liveJob stage id)

theorem backfill_count (h : backfill b w = some (n, w')) (stage : JobStage) (id : DocumentId) :
    w'.liveCount stage id = w.liveCount stage id ∨
      w.liveCount stage id = 0 ∧ w'.liveCount stage id = 1 := by
  rcases backfill_cases h with ⟨-, rfl, -⟩ | ⟨t, -, -, rfl⟩
  · exact .inl rfl
  · obtain ⟨added, hjobs, hids, hall⟩ :=
      enqueueAll_jobs b.stage (b.docs w) { w with documents := t }
    rw [World.liveCount, World.liveCount, hjobs, List.countP_append]
    by_cases hnone : added.countP (liveJob stage id) = 0
    · exact .inl (by rw [hnone, Nat.add_zero])
    · have hpos := Nat.pos_of_ne_zero hnone
      obtain ⟨r, hr, hlive⟩ := List.countP_pos_iff.mp hpos
      simp only [liveJob, Bool.and_eq_true, decide_eq_true_eq] at hlive
      obtain ⟨⟨hst, -⟩, hd⟩ := hlive
      have hmem : id ∈ (b.docs w).map Document.id := hids ▸ hd ▸ List.mem_map_of_mem hr
      obtain ⟨doc, hdoc, rfl⟩ := List.mem_map.mp hmem
      have hwaits := selected_waits (docs_mem hdoc).2
      obtain rfl : b.stage = stage := (hall r hr).1.symm.trans hst
      have hbefore : w.jobs.countP (liveJob b.stage doc.id) = 0 := by
        rw [List.countP_eq_zero]
        exact List.any_eq_false.mp hwaits
      have hone : added.countP (liveJob b.stage doc.id) ≤ 1 := by
        have hnodup : (added.map Job.documentId).Nodup := hids ▸ docs_ids_nodup b w
        have hcount := List.nodup_iff_count_le_one.mp hnodup doc.id
        rw [List.count, List.countP_map] at hcount
        refine Nat.le_trans (List.countP_mono_left fun r _ hr => ?_) hcount
        simp only [liveJob, Bool.and_eq_true, decide_eq_true_eq] at hr
        exact beq_iff_eq.mpr hr.2
      exact .inr ⟨hbefore, by dsimp only; omega⟩

/-- Whatever calls are made, none ever queues a second job beside one that is still to do. -/
theorem backfills_single (bs : List BackfillArgs) (w : World) (stage : JobStage)
    (id : DocumentId) : (backfills bs w).liveCount stage id = w.liveCount stage id ∨
      w.liveCount stage id = 0 ∧ (backfills bs w).liveCount stage id = 1 := by
  induction bs generalizing w with
  | nil => exact .inl rfl
  | cons b bs ih =>
    rw [backfills, List.foldl_cons]
    cases hb : backfill b w with
    | none => exact ih w
    | some result =>
      have hfirst := backfill_count hb stage id
      have hrest := ih result.2
      show (backfills bs result.2).liveCount stage id = _ ∨
        _ ∧ (backfills bs result.2).liveCount stage id = 1
      omega

end Repeated

section Recovery

variable {sv : Services} {fleet : Fleet} {s t u : RunningState}

/-- What nothing that goes wrong takes away: each job has a number of its own, of those given
out, and no document has been deleted. -/
structure Numbered (w : World) : Prop where
  nodup : (w.jobs.map Job.jobId).Nodup
  below : ∀ r ∈ w.jobs, r.jobId < w.nextId
  undeleted : ∀ id row, w.doc id = some row → row.deletedAt = none

/-- The operations of a program that deletes and restores nothing. -/
def Undeleting : Op → Prop
  | .softDelete _ | .restore _ => False
  | _ => True

theorem Numbered.enqueue (hw : Numbered w) (id : DocumentId) (stage : JobStage) :
    Numbered (w.enqueue id stage) where
  nodup := by
    rw [World.enqueue, List.map_append, List.nodup_append]
    refine ⟨hw.nodup, List.nodup_singleton _, ?_⟩
    rintro j hj k hk rfl
    obtain ⟨r, hr, rfl⟩ := List.mem_map.mp hj
    have hid : r.jobId = w.nextId := List.mem_singleton.mp hk
    exact absurd (hw.below r hr) (hid ▸ Nat.lt_irrefl _)
  below := by
    intro r hr
    rcases List.mem_append.mp hr with hr | hr
    · exact Nat.lt_succ_of_lt (hw.below r hr)
    · obtain rfl := List.mem_singleton.mp hr
      exact Nat.lt_succ_self _
  undeleted := hw.undeleted

theorem Numbered.of_jobs (hw : Numbered w) (hjobs : w'.jobs = w.jobs) (hnext : w.nextId ≤ w'.nextId)
    (hdocs : ∀ id row, w'.doc id = some row → row.deletedAt = none) : Numbered w' where
  nodup := hjobs ▸ hw.nodup
  below r hr := Nat.lt_of_lt_of_le (hw.below r (hjobs ▸ hr)) hnext
  undeleted := hdocs

/-- A row is new, or it was there with the same date of deletion. -/
theorem deletedAt_of_acts {op : Op} {r : Except Exn op.Resp} (hop : Undeleting op)
    (h : Acts sv op w r w') {id : DocumentId} {row : Document} (hrow : w'.doc id = some row) :
    row.deletedAt = none ∨ ∃ old, w.doc id = some old ∧ row.deletedAt = old.deletedAt := by
  by_cases hr : op.row = none
  · refine .inr ⟨row, ?_, rfl⟩
    rwa [World.doc, documents_of_acts h hr] at hrow
  · cases op
    case create doc =>
      rcases acts_create.mp h with ⟨-, -, rfl⟩ | ⟨t, ht, -, rfl⟩
      · exact .inr ⟨row, hrow, rfl⟩
      · have hrow' : t.get id = some row := hrow
        rw [Documents.insert_get ht] at hrow'
        rcases Option.or_eq_some_iff.mp hrow' with hold | ⟨-, hnew⟩
        · exact .inr ⟨row, hold, rfl⟩
        · split at hnew
          · exact .inl (Option.some.inj hnew ▸ rfl)
          · cases hnew
    case updateDocument doc =>
      rcases acts_updateDocument.mp h with ⟨-, -, rfl⟩ | ⟨t, ht, -, rfl⟩
      · exact .inr ⟨row, hrow, rfl⟩
      · have hrow' : t.get id = some row := hrow
        by_cases hid : id = doc.id
        · subst hid
          cases hold : w.documents.get doc.id with
          | some old =>
            rw [Documents.updateDocument_get ht hold] at hrow'
            exact .inr ⟨old, hold, Option.some.inj hrow' ▸ rfl⟩
          | none =>
            rw [Documents.updateDocument, hold] at ht
            exact .inl (Documents.insert_get_eq ht hrow' ▸ rfl)
        · rw [Documents.updateDocument_get_other ht hid] at hrow'
          exact .inr ⟨row, hrow', rfl⟩
    case setClassification k tier =>
      obtain ⟨-, rfl⟩ := acts_setClassification.mp h
      rw [World.setClassification] at hrow
      split at hrow
      · exact .inr ⟨row, hrow, rfl⟩
      next t ht =>
        have hrow' : t.get id = some row := hrow
        rw [Documents.modify_get ht] at hrow'
        obtain ⟨old, hold, rfl⟩ := Option.map_eq_some_iff.mp hrow'
        exact .inr ⟨old, hold, by split <;> rfl⟩
    case softDelete | restore => exact hop.elim
    all_goals exact absurd rfl hr

theorem numbered_of_acts {op : Op} {r : Except Exn op.Resp} (hop : Undeleting op)
    (h : Acts sv op w r w') (hw : Numbered w) : Numbered w' := by
  by_cases hq : ∃ id stage, op = .enqueue id stage
  · obtain ⟨id, stage, rfl⟩ := hq
    obtain ⟨-, rfl⟩ := acts_enqueue.mp h
    exact hw.enqueue id stage
  · have hno : ∀ id stage, op ≠ .enqueue id stage := fun id stage he => hq ⟨id, stage, he⟩
    have hsame : w'.jobs = w.jobs ∧ w.nextId ≤ w'.nextId := by
      obtain ⟨c, hc⟩ := h
      have heffect : (effect sv c op w).2.jobs = w.jobs ∧ w.nextId ≤ (effect sv c op w).2.nextId :=
        effect_jobs hno
      rwa [hc] at heffect
    refine hw.of_jobs hsame.1 hsame.2 fun id row hrow => ?_
    rcases deletedAt_of_acts hop h hrow with hnone | ⟨old, hold, hsame⟩
    · exact hnone
    · exact hsame.trans (hw.undeleted id old hold)

theorem undeleting_safe (sv : Services) : Safe sv Numbered Undeleting (Possible sv) where
  keeps := numbered_of_acts
  expects hact _ := ⟨_, _, hact⟩
  jobs stage id := (processJob_sends sv stage id).mono fun op hop => by
    cases op
    case softDelete | restore => exact hop.elim
    all_goals trivial

theorem receive_undeleting (d : DocumentId) (filename : String) (data : Bytes)
    (request : UploadRequest) (mimeType : String) :
    (UploadService.receive d filename data request mimeType).Sends Undeleting (Possible sv) :=
  ((receive_uploads d filename data request mimeType).mono fun op hop => by
    cases op
    case softDelete | restore => exact hop.elim
    all_goals trivial).expect fun _ _ _ => trivial

theorem jobIds_update (p : Job → Bool) (f : Job → Job) (jobs : Jobs)
    (hf : ∀ r, (f r).jobId = r.jobId) :
    (Table.update p f jobs).map Job.jobId = jobs.map Job.jobId := by
  rw [Table.update, List.map_map]
  refine List.map_congr_left fun r _ => ?_
  rw [Function.comp_apply]
  split
  · exact hf r
  · rfl

/-- No action of the queue but an insert changes the numbers of the jobs. -/
theorem queue_numbers {s t : QueueState} {a : QueueAction} (h : s.step a = some t)
    (ha : ∀ j d stage, a ≠ .enqueue j d stage) :
    t.jobs.map Job.jobId = s.jobs.map Job.jobId := by
  cases a with
  | tick | crash =>
    obtain rfl := Option.some.inj h
    rfl
  | enqueue j d stage => exact absurd rfl (ha j d stage)
  | pickJob w j =>
    simp only [QueueState.step] at h
    split at h
    · obtain ⟨⟨jobs, item⟩, hp, rfl⟩ := Option.map_eq_some_iff.mp h
      obtain ⟨row, -, -, -, rfl⟩ := QueueState.pickJob_cases hp
      exact jobIds_update _ _ _ fun _ => rfl
    · cases h
  | renewOnce w item =>
    simp only [QueueState.step] at h
    split at h
    · obtain rfl := Option.some.inj h
      exact jobIds_update _ _ _ fun _ => rfl
    · cases h
  | markJobCompleted w | markJobFailed w =>
    obtain ⟨item, -, ht⟩ := QueueState.finish_cases h
    rw [ht]
    exact jobIds_update _ _ _ fun _ => rfl
  | handleJobRetryOrFail w message =>
    obtain ⟨item, -, ht⟩ := QueueState.finish_cases h
    rw [ht, BaseWorker.handleJobRetryOrFail]
    split <;> exact jobIds_update _ _ _ fun _ => rfl
  | reapStuckJobs w =>
    obtain rfl := Option.some.inj h
    exact (jobIds_update _ (BaseWorker.reclaim s.now) _ fun _ => rfl).trans
      (jobIds_update _ (BaseWorker.expire s.now) _ fun _ => rfl)

theorem numbered_of_step {a : RunAction} (hs : Keeping Numbered Undeleting (Possible sv) s)
    (h : s.step sv fleet a = some t) : Keeping Numbered Undeleting (Possible sv) t := by
  refine hs.step (undeleting_safe sv) (fun id filename data request mimeType _ =>
    receive_undeleting id filename data request mimeType) ?_ h
  intro act q hact hstep hw
  have hno : ∀ j d stage, act ≠ .enqueue j d stage := by
    rintro j d stage rfl
    cases hact
  have hids : q.jobs.map Job.jobId = s.world.jobs.map Job.jobId := queue_numbers hstep hno
  refine ⟨hids.symm ▸ hw.nodup, fun r hr => ?_, hw.undeleted⟩
  obtain ⟨old, hold, hid⟩ := List.mem_map.mp (hids ▸ List.mem_map_of_mem hr)
  exact hid ▸ hw.below old hold

/-- Every stage, one after the other. -/
def refill (stages : List JobStage) (w : World) : World :=
  backfills (stages.map BackfillArgs.plain) w

/-- Jobs have come, and nothing else is different. -/
structure Refilled (w w' : World) : Prop where
  documents : w'.documents = w.documents
  stays : ∀ p, w.jobs.any p = true → w'.jobs.any p = true
  numbered : Numbered w → Numbered w'

theorem Refilled.trans {v : World} (h : Refilled w v) (h' : Refilled v w') : Refilled w w' :=
  ⟨h'.documents.trans h.documents, fun p hp => h'.stays p (h.stays p hp),
    fun hw => h'.numbered (h.numbered hw)⟩

theorem enqueueAll_refilled (stage : JobStage) (docs : List Document) (w : World) :
    Refilled w (w.enqueueAll stage docs) where
  documents := enqueueAll_documents docs w
  stays _ := enqueueAll_any
  numbered := by
    intro hw
    induction docs generalizing w with
    | nil => exact hw
    | cons doc docs ih => exact ih _ (hw.enqueue doc.id stage)

theorem refill_cons (stage : JobStage) (stages : List JobStage) (w : World) :
    refill (stage :: stages) w =
      refill stages (w.enqueueAll stage ((BackfillArgs.plain stage).docs w)) := by
  rw [refill, backfills, List.map_cons, List.foldl_cons, backfill]
  congr 1
  split
  next h =>
    have hnone : (BackfillArgs.plain stage).docs w = [] := by
      simpa [BackfillArgs.plain] using h
    rw [hnone]
    rfl
  next => rfl

theorem refill_refilled (stages : List JobStage) (w : World) : Refilled w (refill stages w) := by
  induction stages generalizing w with
  | nil => exact ⟨rfl, fun _ h => h, fun h => h⟩
  | cons stage stages ih =>
    rw [refill_cons]
    exact (enqueueAll_refilled stage _ w).trans (ih _)

theorem refill_live {stages : List JobStage} (hstage : stage ∈ stages) {w : World}
    {id : DocumentId} {row : Document} (hrow : w.doc id = some row) (hdel : row.deletedAt = none)
    (hs : row.status = stageEntryStatus stage) :
    (refill stages w).jobs.any (liveJob stage id) = true := by
  induction stages generalizing w with
  | nil => cases hstage
  | cons first stages ih =>
    rw [refill_cons]
    by_cases hfirst : stage = first
    · subst hfirst
      refine (refill_refilled stages _).stays _ ?_
      by_cases hlive : w.jobs.any (liveJob stage id) = true
      · exact enqueueAll_any hlive
      · have hid : row.id = id := Documents.get_id hrow
        have hsel : (BackfillArgs.plain stage).selects w row = true := by
          simp [BackfillArgs.selects, BackfillArgs.plain, hs, hdel, hid, hlive]
        rw [← hid]
        exact enqueueAll_live (mem_docs rfl (Documents.mem_of_get hrow) hsel)
    · refine ih ((List.mem_cons.mp hstage).resolve_left hfirst) ?_
      rw [World.doc, enqueueAll_documents]
      exact hrow

theorem nextStage_entry {status : DocumentStatus} (h : nextStage status = some stage) :
    status = stageEntryStatus stage := by
  cases status <;> cases h <;> rfl

/-- Nobody is at work. -/
structure Stopped (s : RunningState) : Prop where
  current : ∀ i, s.current i = none
  uploads : ∀ id, s.uploads id = none

/-- Where nobody is at work, what is left undone is what has no job. -/
theorem handOver_of_stopped (hs : Stopped s) (hw : Numbered s.world)
    (hlive : ∀ id row stage, s.world.doc id = some row → nextStage row.status = some stage →
      s.world.jobs.any (liveJob stage id) = true) : HandOverInv sv fleet s where
  ids := fun j r hj => Table.key_of_lookup hj ▸ hw.below r (Table.mem_of_lookup hj)
  items := fun i item hi => nomatch (hs.current i).symm.trans hi
  workers := fun i item hi => nomatch (hs.current i).symm.trans hi
  uploads := fun d p hp => nomatch (hs.uploads d).symm.trans hp
  covered := by
    intro id row stage hrow hstage
    obtain ⟨r, hr, hl⟩ := List.any_eq_true.mp (hlive id row stage hrow hstage)
    simp only [liveJob, Bool.and_eq_true, Bool.or_eq_true, decide_eq_true_eq] at hl
    obtain ⟨⟨hst, hstatus⟩, hd⟩ := hl
    refine .job r.jobId r ⟨(Table.lookup_eq_some_iff hw.nodup).mpr ⟨hr, rfl⟩, hd, hst, ?_, ?_⟩
    · exact hstatus.elim .inl fun h => .inr (.inl h)
    · exact fun i item hi _ => nomatch (hs.current i).symm.trans hi

theorem noneStranded_of_handOver (h : HandOverInv sv fleet s) : NoneStranded sv fleet s := by
  intro d row stage hup hcur hretries hrow hstage
  cases h.covered d row stage hrow hstage with
  | upload p hp => exact nomatch hup.symm.trans hp
  | worker i item hi hd => exact absurd hd (hcur i item hi)
  | job j r hw =>
    have hmem : r ∈ s.world.jobs := Table.mem_of_lookup hw.row
    have hstatus : r.status = .pending ∨ r.status = .running :=
      or_assoc.mpr hw.status |>.resolve_right (hretries r hmem hw.document)
    exact ⟨r, hmem, hw.document, hstatus, .inl hw.stage⟩

end Recovery

section Examples

/-- The process dies in the middle of an upload: the row is there and no job. -/
def cutUpload : List RunAction :=
  [.receive 0 "memo.pdf" [37] plainRequest "application/pdf", .upload 0 .fine, .upload 0 .fine,
    .endUpload 0]

theorem cut_stopped : Stopped (ranTo cutUpload) := by
  refine ⟨fun _ => rfl, fun id => ?_⟩
  by_cases h : id = 0
  · subst h
    rfl
  · show Function.update (Function.update (Function.update (Function.update
      freshState.uploads 0 _) 0 _) 0 _) 0 none id = none
    simp only [Function.update_of_ne h]
    rfl
def allStages : List JobStage := [.scan, .extract, .normalize, .chunk, .embed]

theorem cut_upload_again : ∃ w', backfill (.plain .scan) (ranTo cutUpload).world = some (1, w') ∧
    backfill (.plain .scan) w' = some (0, w') := by
  have hfirst : (backfill (.plain .scan) (ranTo cutUpload).world).map Prod.fst = some 1 := by
    decide +kernel
  obtain ⟨⟨n, w'⟩, h, rfl⟩ := Option.map_eq_some_iff.mp hfirst
  exact ⟨w', h, backfill_again rfl h⟩

def refilled : RunningState :=
  { ranTo cutUpload with world := refill allStages (ranTo cutUpload).world }

end Examples

end KnowledgeBase
