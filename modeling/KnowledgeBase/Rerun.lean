import KnowledgeBase.StageHandlers

/-! Running a stage again on a document that is past it. Four stages run on one status
and do nothing on any other; the scan lists the statuses it leaves alone. -/

namespace KnowledgeBase

open Program

/-- The statuses a stage runs on. -/
def entryStatuses : JobStage → List DocumentStatus
  | .scan => [.uploaded, .quarantined, .validationFailed]
  | .extract => [.validated]
  | .normalize => [.extracted]
  | .chunk => [.awaitingClassification]
  | .embed => [.chunked]

/-- The row of the document, its chunks, the jobs and the stores are as they were. -/
structure Untouched (id : DocumentId) (w w' : World) : Prop where
  doc : w'.doc id = w.doc id
  chunks : w'.chunksOf id = w.chunksOf id
  jobs : w'.jobs = w.jobs
  objects : w'.objects = w.objects
  extracted : w'.extracted = w.extracted
  normalized : w'.normalized = w.normalized

variable {sv : Services} {w w' : World} {id : DocumentId} {d : Document}

theorem jobOutcome_ends {stage : Stage StageOutcome} {o : Except Exn JobOutcome}
    (h : Ends (Acts sv) (do return (← stage).jobOutcome) w o w') :
    ∃ o', Ends (Acts sv) stage w o' w' := by
  rcases ends_bind.mp h with ⟨e, he, -⟩ | ⟨a, u, ha, hr⟩
  · exact ⟨_, he⟩
  · obtain ⟨-, rfl⟩ := ends_ret.mp hr
    exact ⟨_, ha⟩

theorem extract_skips {o : Except Exn StageOutcome} (hd : w.doc id = some d)
    (hs : d.status ≠ .validated)
    (h : Ends (Acts sv) (ExtractionJobHandler.process sv id) w o w') : w' = w := by
  rw [ExtractionJobHandler.process, ends_getById_bind, hd] at h
  simp only [if_pos hs] at h
  exact (ends_ret.mp h).2

theorem normalize_skips {o : Except Exn StageOutcome} (hd : w.doc id = some d)
    (hs : d.status ≠ .extracted)
    (h : Ends (Acts sv) (NormalizationJobHandler.process sv id) w o w') : w' = w := by
  rw [NormalizationJobHandler.process, ends_getById_bind, hd] at h
  simp only [if_pos hs] at h
  exact (ends_ret.mp h).2

theorem chunk_skips {o : Except Exn StageOutcome} (hd : w.doc id = some d)
    (hs : d.status ≠ .awaitingClassification)
    (h : Ends (Acts sv) (ChunkingJobHandler.process sv id) w o w') : w' = w := by
  rw [ChunkingJobHandler.process, ends_getById_bind, hd] at h
  simp only [if_pos hs] at h
  exact (ends_ret.mp h).2

theorem embed_skips {o : Except Exn StageOutcome} (hd : w.doc id = some d)
    (hs : d.status ≠ .chunked)
    (h : Ends (Acts sv) (EmbeddingJobHandler.process sv id) w o w') : w' = w := by
  rw [EmbeddingJobHandler.process, ends_getById_bind, hd] at h
  simp only [if_pos hs] at h
  exact (ends_ret.mp h).2

namespace ScanJobHandler

/-- The statuses the guard of the scan names. -/
def Guarded (d : Document) : Prop := d.status ∈ promotedStatuses ∨ d.status ∈ finalizedStatuses

theorem process_skips {o : Except Exn UploadResponse} (hd : w.doc id = some d)
    (hs : Guarded d) (h : Ends (Acts sv) (process sv id none) w o w') : w' = w := by
  rw [process, ends_getById_bind, hd] at h
  have hs' : d.status ∈ promotedStatuses ∨ d.status ∈ finalizedStatuses := hs
  simp only [if_pos hs'] at h
  exact (ends_ret.mp h).2

instance (d : Document) : Decidable (Guarded d) :=
  inferInstanceAs (Decidable (d.status ∈ promotedStatuses ∨ d.status ∈ finalizedStatuses))

/-- The row has a new status. -/
def Moved (id : DocumentId) (d : Document) (w' : World) : Prop :=
  ∃ row, w'.doc id = some row ∧ row.status ≠ d.status

theorem moved_of_update {doc : Document} {k : Unit → Stage UploadResponse}
    {o : Except Exn UploadResponse}
    (h : Ends (Acts sv) (send (.updateDocument doc) >>= k) w o w') (hid : doc.id = id)
    (hd : w.doc id = some d) (hst : doc.status ≠ d.status)
    (hfree : doc.active = true → ∀ e ∈ w.documents.rows, e.id ≠ doc.id → e.active = true →
      e.checksum ≠ doc.checksum)
    (hk : (k ()).Sends (fun op => op.row ≠ some doc.id) (fun _ _ => True)) :
    Moved id d w' := by
  subst hid
  rcases writeBack_of_ends h hd hk with ⟨hn, -, -⟩ | hw
  · obtain ⟨ha, e, he, hne, hea, -, hc⟩ := Documents.updateDocument_eq_none hn hd
    exact absurd hc (hfree ha e he hne hea)
  · exact ⟨_, hw, hst⟩

theorem reject_moves {o : Except Exn UploadResponse} {v : ValidationResult}
    (hd : w.doc d.id = some d) (hst : d.status ≠ .rejected)
    (h : Ends (Acts sv) (reject d v) w o w') : Moved d.id d w' := by
  refine moved_of_update h rfl hd (Ne.symm hst) (fun ha => by cases ha) ?_
  refine sends_bind (sends_perform (by simp [Op.row])) fun _ => ?_
  exact sends_bind (sends_perform (by simp [Op.row])) fun _ => trivial

theorem escalate_sends {canonical : Document} {incoming : Option Classification}
    (h : canonical.id ≠ id) :
    (escalateTierIfStricter canonical incoming).Sends (fun op => op.row ≠ some id)
      (fun _ _ => True) := by
  unfold escalateTierIfStricter
  split
  · trivial
  · split
    · refine sends_bind (sends_perform (by simpa [Op.row] using h)) fun _ => ?_
      exact sends_bind (sends_perform (by simp [Op.row])) fun _ => trivial
    · trivial

theorem escalate_ends {canonical : Document} {incoming : Option Classification}
    {o : Except Exn (Bool × Document)}
    (h : Ends (Acts sv) (escalateTierIfStricter canonical incoming) w o w') : ∃ a, o = .ok a := by
  unfold escalateTierIfStricter at h
  split at h
  · exact ⟨_, (ends_ret.mp h).1⟩
  · split at h
    · rw [ends_setClassification_bind] at h
      obtain ⟨a, h⟩ := ends_audit_bind h
      exact ⟨_, (ends_ret.mp h).1⟩
    · exact ⟨_, (ends_ret.mp h).1⟩

theorem duplicate_moves {o : Except Exn UploadResponse} {doc existing : Document}
    {key : ObjectKey} {sha256 : Sha256}
    (h : Ends (Acts sv) (duplicate doc key sha256 existing) w o w') (hd : w.doc doc.id = some d)
    (hst : d.status ≠ .duplicate) (hne : existing.id ≠ doc.id) : Moved doc.id d w' := by
  unfold duplicate at h
  rcases ends_bind.mp h with ⟨e, he, -⟩ | ⟨⟨escalated, canonical⟩, u, hu, h⟩
  · obtain ⟨a, ha⟩ := escalate_ends he
    cases ha
  · have hdu : u.doc doc.id = some d := (doc_of_ends hu (escalate_sends hne)).trans hd
    refine moved_of_update h rfl hdu (Ne.symm hst) (fun ha => by cases ha) ?_
    refine sends_bind (sends_perform (by simp [Op.row])) fun _ => ?_
    exact sends_bind (sends_perform (by simp [Op.row])) fun _ => trivial

theorem moveToRaw_sends {key rawKey : ObjectKey} :
    (moveToRaw key rawKey).Sends (fun op => op.row = none) (fun _ _ => True) := by
  refine sends_bind (sends_perform rfl) fun there => ?_
  cases there
  · refine sends_bind (sends_perform rfl) fun _ => ?_
    exact sends_bind (sends_perform rfl) fun _ => trivial
  · exact sends_bind (sends_perform rfl) fun _ => trivial

theorem handOver_sends (doc : Document) (key : ObjectKey) (v : ValidationResult)
    (id : DocumentId) :
    (handOver doc key v).Sends (fun op => op.row ≠ some id) (fun _ _ => True) := by
  refine sends_bind (sends_perform (by simp [Op.row])) fun _ => ?_
  refine sends_bind (sends_perform (by simp [Op.row])) fun _ => ?_
  exact sends_bind (sends_perform (by simp [Op.row])) fun _ => trivial

/-- Nothing in the row of another document stands against the promotion. -/
theorem promote_moves {o : Except Exn UploadResponse} {doc : Document} {key : ObjectKey}
    {v : ValidationResult} (h : Ends (Acts sv) (promote doc key v) w o w')
    (hd : w.doc doc.id = some d) (hst : d.status ≠ .validated ∧ d.status ≠ .validationFailed)
    (hfree : ∀ e ∈ w.documents.rows, e.id ≠ doc.id → e.active = true →
      e.checksum ≠ doc.checksum) : Moved doc.id d w' := by
  unfold promote at h
  obtain ⟨moved, u, hu, h⟩ := ends_attempt_bind.mp h
  have hdocs : u.documents = w.documents :=
    hu.invariant (I := fun u : World => u.documents = w.documents) moveToRaw_sends
      (fun _ _ _ _ hop ha hs => (documents_of_acts ha hop).trans hs) rfl
  have hdu : u.doc doc.id = some d := by rw [World.doc, hdocs]; exact hd
  have hfree' : ∀ e ∈ u.documents.rows, e.id ≠ doc.id → e.active = true →
      e.checksum ≠ doc.checksum := by rw [hdocs]; exact hfree
  cases moved with
  | error e =>
    refine moved_of_update h rfl hdu (Ne.symm hst.2) (fun _ => hfree') ?_
    trivial
  | ok _ =>
    obtain ⟨written, v', hv, h⟩ := ends_attempt_send_bind.mp h
    rcases acts_updateDocument.mp hv with ⟨hn, -, -⟩ | ⟨t, ht, rfl, rfl⟩
    · obtain ⟨-, e, he, hne, hea, -, hc⟩ := Documents.updateDocument_eq_none hn hdu
      exact absurd hc (hfree' e he hne hea)
    · have hdoc := Documents.updateDocument_get ht hdu
      have hend : w'.doc doc.id = some ((promoted doc v).writeBack d) :=
        (doc_of_ends h (handOver_sends doc key v _)).trans hdoc
      exact ⟨_, hend, Ne.symm hst.1⟩

theorem dedupAndPromote_moves {o : Except Exn UploadResponse} {doc : Document} {key : ObjectKey}
    {v : ValidationResult} (h : Ends (Acts sv) (dedupAndPromote doc key v none) w o w')
    (hc : doc.checksum = some v.sha256) (hd : w.doc doc.id = some d)
    (hst : d.status ≠ .validated ∧ d.status ≠ .validationFailed ∧ d.status ≠ .duplicate) :
    Moved doc.id d w' := by
  unfold dedupAndPromote at h
  rw [ends_getByChecksum_bind] at h
  have hpromote : (∀ e ∈ w.documents.rows, e.id ≠ doc.id → e.active = true →
      e.checksum ≠ some v.sha256) → Ends (Acts sv) (promote doc key v) w o w' →
      Moved doc.id d w' := by
    intro hfree hp
    exact promote_moves hp hd ⟨hst.1, hst.2.1⟩ (hc.symm ▸ hfree)
  cases hx : w.documents.getByChecksum v.sha256 with
  | none =>
    simp only [hx] at h
    refine hpromote ?_ h
    intro e he _ hea hec
    have hna := Documents.getByChecksum_eq_none hx (Documents.get_of_mem he) hec
    rw [hea] at hna
    cases hna
  | some e =>
    simp only [hx] at h
    split at h
    · rename_i hne
      exact duplicate_moves h hd hst.2.2 hne
    · rename_i hid
      refine hpromote ?_ h
      intro f hf hne hfa hfc
      have hxf := Documents.getByChecksum_eq_some (Documents.get_of_mem hf) hfc hfa
      rw [hx] at hxf
      rw [Option.some.inj hxf] at hid
      exact hid hne

/-- Where the guard does not stop it, the scan moves the document on, but for a read
that fails on a row whose write the index refuses. -/
theorem process_moves {act : Program.Acts Op Op.Resp Exn World}
    (hact : ∀ op s r s', act op s r s' → Acts sv op s r s') {o : Except Exn UploadResponse}
    (hd : w.doc id = some d) (hs : ¬ Guarded d) (hst : d.status ≠ .validationFailed)
    (h : Ends act (process sv id none) w o w') :
    Moved id d w' ∨ (w' = w ∧ (∃ e, act (.getObject .quarantine (quarantineKeyFor d)) w
        (.error e) w) ∧
      ∃ e ∈ w.documents.rows, e.id ≠ id ∧ e.active = true ∧ d.checksum ≠ none ∧
        e.checksum = d.checksum) := by
  obtain rfl : d.id = id := Documents.get_id hd
  have hs' : ¬ (d.status ∈ promotedStatuses ∨ d.status ∈ finalizedStatuses) := hs
  unfold process at h
  rcases ends_send_bind.mp h with ⟨e, he, -⟩ | ⟨loaded, u, hu, h⟩
  · cases (acts_getById.mp (hact _ _ _ _ he)).1
  · obtain ⟨hl, rfl⟩ := acts_getById.mp (hact _ _ _ _ hu)
    obtain rfl := (Except.ok.inj hl).trans hd
    simp only [if_neg hs'] at h
    obtain ⟨read, u, hr, h⟩ := ends_attempt_send_bind.mp h
    obtain ⟨rfl, -⟩ := acts_getObject (hact _ _ _ _ hr)
    have hne : d.status ≠ .validated ∧ d.status ≠ .duplicate ∧ d.status ≠ .rejected := by
      simp only [promotedStatuses, finalizedStatuses, List.mem_cons, not_or] at hs'
      exact ⟨hs'.1.1, hs'.2.2.1, hs'.2.1⟩
    cases read with
    | error e =>
      rcases writeBack_of_ends (h.mono hact) hd trivial with ⟨hn, -, rfl⟩ | hw
      · obtain ⟨-, f, hf, hfid, hfa, hfn, hfc⟩ := Documents.updateDocument_eq_none hn hd
        exact .inr ⟨rfl, ⟨e, hr⟩, f, hf, hfid, hfa, hfn, hfc⟩
      · exact .inl ⟨_, hw, Ne.symm hst⟩
    | ok data =>
      left
      have h' := h.mono hact
      simp only at h'
      split at h'
      · have hm := dedupAndPromote_moves h' rfl hd ⟨hne.1, hst, hne.2.1⟩
        exact hm
      · exact reject_moves hd hne.2.2 h'

/-- Another active row has the hash this retired one was written with. -/
def HashTaken (w : World) (d : Document) : Prop :=
  ∃ e ∈ w.documents.rows, e.id ≠ d.id ∧ e.active = true ∧ d.checksum ≠ none ∧
    e.checksum = d.checksum

theorem process_refused {o : Except Exn UploadResponse} (hd : w.doc d.id = some d)
    (hs : ¬ Guarded d) (hmissing : w.objects .quarantine (quarantineKeyFor d) = none)
    (hc : HashTaken w d) (h : Ends (Acts sv) (process sv d.id none) w o w') : w' = w := by
  have hs' : ¬ (d.status ∈ promotedStatuses ∨ d.status ∈ finalizedStatuses) := hs
  rw [process, ends_getById_bind, hd] at h
  simp only [if_neg hs'] at h
  obtain ⟨read, u, hr, h⟩ := ends_attempt_send_bind.mp h
  obtain ⟨rfl, ⟨e, rfl⟩ | ⟨v, hv, -⟩⟩ := acts_getObject hr
  · obtain ⟨f, hf, hid, hfa, hne, hfc⟩ := hc
    rcases ends_updateDocument_bind.mp h with ⟨-, -, hw⟩ | ⟨t, ht, -⟩
    · exact hw
    · have hn : u.documents.updateDocument (unreadable d) = none :=
        Documents.updateDocument_refused hd rfl hf hid hfa hne hfc
      rw [hn] at ht
      cases ht
  · rw [hmissing] at hv
    cases hv

end ScanJobHandler

open ScanJobHandler

theorem processJob_scan {o : Except Exn JobOutcome}
    (h : Ends (Acts sv) (processJob sv .scan id) w o w') :
    ∃ o', Ends (Acts sv) (ScanJobHandler.process sv id none) w o' w' := by
  rcases ends_bind.mp h with ⟨e, he, -⟩ | ⟨a, u, ha, hr⟩
  · exact ⟨_, he⟩
  · obtain ⟨-, rfl⟩ := ends_ret.mp hr
    exact ⟨_, ha⟩

theorem untouched_self (id : DocumentId) (w : World) : Untouched id w w :=
  ⟨rfl, rfl, rfl, rfl, rfl, rfl⟩

theorem later_stage_skips {stage : JobStage} (hstage : stage ≠ .scan) (hd : w.doc id = some d)
    (hpast : d.status ∉ entryStatuses stage) {o : Except Exn JobOutcome}
    (h : Ends (Acts sv) (processJob sv stage id) w o w') : w' = w := by
  cases stage with
  | scan => exact absurd rfl hstage
  | extract =>
    obtain ⟨o', h'⟩ := jobOutcome_ends h
    exact extract_skips hd (by simpa [entryStatuses] using hpast) h'
  | normalize =>
    obtain ⟨o', h'⟩ := jobOutcome_ends h
    exact normalize_skips hd (by simpa [entryStatuses] using hpast) h'
  | chunk =>
    obtain ⟨o', h'⟩ := jobOutcome_ends h
    exact chunk_skips hd (by simpa [entryStatuses] using hpast) h'
  | embed =>
    obtain ⟨o', h'⟩ := jobOutcome_ends h
    exact embed_skips hd (by simpa [entryStatuses] using hpast) h'

/-- A stage past which the document is leaves everything alone exactly when it is not
the scan, or the scan's guard names the status, or there is nothing left to read and
the index refuses the write. -/
theorem rerun_untouched_iff (sv : Services) (w : World) (stage : JobStage) {id : DocumentId}
    {d : Document} (hd : w.doc id = some d) (hpast : d.status ∉ entryStatuses stage) :
    (∀ o w', Ends (Acts sv) (processJob sv stage id) w o w' → Untouched id w w') ↔
      (stage = .scan → Guarded d ∨
        w.objects .quarantine (quarantineKeyFor d) = none ∧ HashTaken w d) := by
  obtain rfl : d.id = id := Documents.get_id hd
  constructor
  · rintro hall rfl
    by_contra hno
    rw [not_or] at hno
    have hhealthy : ∃ o w', Ends (Healthy sv) (processJob sv .scan d.id) w o w' :=
      exists_ends exists_healthy _ w
    obtain ⟨o, w', h⟩ := hhealthy
    have hrow := hall o w' (h.mono fun _ _ _ _ => healthy_acts)
    have hst : d.status ≠ .validationFailed := by
      intro he
      simp [entryStatuses, he] at hpast
    have hends : ∃ o', Ends (Healthy sv) (ScanJobHandler.process sv d.id none) w o' w' := by
      rcases ends_bind.mp h with ⟨e, he, -⟩ | ⟨a, u, ha, hr⟩
      · exact ⟨_, he⟩
      · obtain ⟨-, rfl⟩ := ends_ret.mp hr
        exact ⟨_, ha⟩
    obtain ⟨o', h'⟩ := hends
    rcases process_moves (fun _ _ _ _ => healthy_acts) hd hno.1 hst h' with
      ⟨row, hr, hne⟩ | ⟨-, ⟨e, he⟩, hc⟩
    · rw [hrow.doc, hd] at hr
      exact hne (by rw [← Option.some.inj hr])
    · refine hno.2 ⟨?_, hc⟩
      cases ho : w.objects .quarantine (quarantineKeyFor d) with
      | none => rfl
      | some v =>
        simp only [Healthy, effect, ho, found, Prod.mk.injEq] at he
        cases he.1
  · intro hcond o w' h
    by_cases hstage : stage = .scan
    · subst hstage
      obtain ⟨o', h'⟩ := processJob_scan h
      have hw : w' = w := by
        by_cases hg : Guarded d
        · exact process_skips hd hg h'
        · obtain ⟨hm, hc⟩ := (hcond rfl).resolve_left hg
          exact process_refused hd hg hm hc h'
      exact hw ▸ untouched_self d.id w
    · exact later_stage_skips hstage hd hpast h ▸ untouched_self d.id w

/-- Re-running a finished stage changes nothing. -/
def RerunChangesNothing : Prop :=
  ∀ (sv : Services) (w : World) (stage : JobStage) (id : DocumentId) (d : Document),
    w.doc id = some d → d.status ∉ entryStatuses stage →
    ∀ o w', Ends (Acts sv) (processJob sv stage id) w o w' → Untouched id w w'

/-- A document that has been promoted and split into passages. -/
def chunkedRow : Document :=
  uploadedRow 0 fun d =>
    { d with status := .chunked, checksum := some "e3b0", quarantinePath := none,
             rawPath := some (.ofContent "e3b0" ".pdf") }

def chunkedWorld : World :=
  { World.empty with documents := ⟨[chunkedRow], by decide, by decide⟩ }

def liveWorld : World :=
  { World.empty with documents := ⟨[{ chunkedRow with status := .live }], by decide, by decide⟩ }

/-- A scan re-run on a LIVE document leaves it as it is. -/
theorem rerun_of_live : Untouched 0 liveWorld
    (run (effect plainServices) (fun _ => .fine) (processJob plainServices .scan 0) liveWorld).2 := by
  have hends : Ends (Acts plainServices) (processJob plainServices .scan 0) liveWorld
      (run (effect plainServices) (fun _ => .fine) (processJob plainServices .scan 0) liveWorld).1
      (run (effect plainServices) (fun _ => .fine) (processJob plainServices .scan 0)
        liveWorld).2 := ends_run (fun _ _ _ => ⟨.fine, rfl⟩) _ _
  exact (rerun_untouched_iff plainServices liveWorld .scan (d := { chunkedRow with status := .live })
    rfl (by decide)).mpr (fun _ => .inl (by decide)) _ _ hends

/-- A scan re-run on a chunked document does not find its file in quarantine, and says
that validation failed. -/
theorem rescan_fails_chunked_document : ¬ RerunChangesNothing := by
  intro h
  have hends : Ends (Acts plainServices) (processJob plainServices .scan 0) chunkedWorld
      (run (effect plainServices) (fun _ => .fine) (processJob plainServices .scan 0) chunkedWorld).1
      (run (effect plainServices) (fun _ => .fine) (processJob plainServices .scan 0)
        chunkedWorld).2 := ends_run (fun _ _ _ => ⟨.fine, rfl⟩) _ _
  have hu := h plainServices chunkedWorld .scan 0 chunkedRow rfl (by decide) _ _ hends
  have hst : ((run (effect plainServices) (fun _ => Luck.fine)
      (processJob plainServices .scan 0) chunkedWorld).2.doc 0).map Document.status =
      some .validationFailed := by decide +kernel
  rw [hu.doc] at hst
  revert hst
  decide +kernel

end KnowledgeBase
