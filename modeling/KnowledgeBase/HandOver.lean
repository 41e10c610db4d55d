import KnowledgeBase.Conduct

/-! A document that waits for a stage is moved on by it, unless the job is retried. -/

namespace KnowledgeBase

open Program

/-- As long as the document has status `h` the program does not end, but in a way that
has its job retried; `true` once it has written another status. -/
def movesOn (sv : Services) (d : DocumentId) (h : DocumentStatus) :
    Discipline Op Op.Resp Exn Bool where
  allowed _ _ := True
  expected _ op r := ∃ w w' row, Acts sv op w r w' ∧ w.doc d = some row ∧ row.status = h
  next moved op r :=
    match op, r with
    | .updateDocument doc, .ok _ => moved || (doc.id = d && doc.status ≠ h)
    | _, _ => moved

def MovesOn (sv : Services) (d : DocumentId) (h : DocumentStatus) {α : Type}
    (retried : α → Prop) (p : Stage α) : Prop :=
  Follows (movesOn sv d h) (fun moved o => moved = true ∨ ∀ a, o = .ok a → retried a) false p

section Moves

variable {α β : Type} {sv : Services} {d : DocumentId} {h : DocumentStatus}
  {retried : β → Prop}

theorem moved_follows {final : Bool → Except Exn β → Prop} (hfinal : ∀ o, final true o)
    (p : Stage β) : Follows (movesOn sv d h) final true p := by
  refine follows_of_free (· = true) (fun _ _ _ => trivial) ?_ ?_ rfl p
  · rintro y op r rfl
    cases op
    case updateDocument doc => cases r <;> rfl
    all_goals rfl
  · rintro y o rfl
    exact hfinal o

/-- Whatever runs first, what follows it moves the document on. -/
theorem moves_bind {p : Stage α} {k : α → Stage β} (hk : ∀ a, MovesOn sv d h retried (k a)) :
    MovesOn sv d h retried (p >>= k) := by
  refine follows_bind (follows_of_free (fun _ => True) (fun _ _ _ => trivial)
    (fun _ _ _ _ => trivial) ?_ trivial p)
  intro y o _
  cases o with
  | error e => exact .inr nofun
  | ok a =>
    cases y with
    | false => exact hk a
    | true => exact moved_follows (fun _ => .inl rfl) _

theorem moves_getById_bind {k : Option Document → Stage β}
    (hk : ∀ doc, doc.id = d → doc.status = h → MovesOn sv d h retried (k (some doc))) :
    MovesOn sv d h retried (send (.getById d) >>= k) := by
  refine follows_bind (follows_perform trivial ?_)
  rintro r ⟨w, w', row, hact, hrow, hs⟩
  obtain ⟨rfl, -⟩ := acts_getById.mp hact
  rw [hrow]
  exact hk row (Documents.get_id hrow) hs

theorem movesOn_next (doc : Document) (hid : doc.id = d) (hs : doc.status ≠ h) :
    (movesOn sv d h).next false (.updateDocument doc) (.ok ()) = true := by
  show (false || (doc.id = d && doc.status ≠ h)) = true
  simp [hid, hs]

/-- A write of another status is all that is asked. -/
theorem moves_update_bind (doc : Document) {k : Unit → Stage β} (hid : doc.id = d)
    (hs : doc.status ≠ h) : MovesOn sv d h retried (send (.updateDocument doc) >>= k) := by
  refine follows_bind (follows_perform trivial ?_)
  intro r _
  cases r with
  | error e => exact .inr nofun
  | ok _ =>
    show Follows _ _ _ _
    rw [movesOn_next doc hid hs]
    exact moved_follows (fun _ => .inl rfl) _

theorem moves_attempt_update_bind (doc : Document) {k : Except Exn Unit → Stage β}
    (hid : doc.id = d) (hs : doc.status ≠ h)
    (hk : ∀ e, MovesOn sv d h retried (k (.error e))) :
    MovesOn sv d h retried (attempt (send (.updateDocument doc)) >>= k) := by
  refine follows_bind (follows_attempt (follows_perform trivial ?_))
  intro r _
  cases r with
  | error e => exact hk e
  | ok _ =>
    show Follows _ _ _ _
    rw [movesOn_next doc hid hs]
    exact moved_follows (fun _ => .inl rfl) _

theorem moves_ret {a : β} (ha : retried a) : MovesOn sv d h retried (.ret a) :=
  .inr fun _ ho => Except.ok.inj ho ▸ ha

theorem moves_raise {e : Exn} : MovesOn sv d h retried (.raise e : Stage β) := .inr nofun

theorem moves_outcome {p : Stage α} {f : α → JobOutcome}
    (hp : MovesOn sv d h (fun a => ∃ m, f a = .transient m) p) :
    MovesOn sv d h (fun o => ∃ m, o = .transient m) (do return f (← p)) := by
  refine follows_bind (Follows.mono ?_ hp)
  rintro y o (rfl | ho)
  · cases o <;> exact .inl rfl
  · cases o with
    | error e => exact .inr nofun
    | ok a =>
      obtain ⟨m, hm⟩ := ho a rfl
      exact .inr fun _ he => ⟨m, Except.ok.inj he ▸ hm⟩

/-- The outcomes of a stage that its worker retries. -/
def StageOutcome.Retries (o : StageOutcome) : Prop := ∃ m, o.jobOutcome = .transient m

theorem retry_retries (doc : Document) (message reason : String) :
    (StageOutcome.retry doc message reason).Retries := ⟨reason, rfl⟩

variable {doc : Document}

theorem markFailed_moves {status : DocumentStatus} {event : AuditEventType}
    {message reason : String} {retried : StageOutcome → Prop} (hid : doc.id = d)
    (hs : status ≠ h) : MovesOn sv d h retried (markFailed doc status event message reason) :=
  moves_update_bind _ hid hs

namespace ScanJobHandler

variable {retried : UploadResponse → Prop}

theorem promote_moves_on (hid : doc.id = d) (key : ObjectKey) (v : ValidationResult) :
    MovesOn sv d .quarantined retried (promote doc key v) := by
  refine moves_bind fun moved => ?_
  cases moved with
  | error e => exact moves_update_bind _ hid nofun
  | ok _ =>
    refine moves_attempt_update_bind _ hid nofun fun e => ?_
    cases e with
    | integrityError => exact moves_update_bind _ hid nofun
    | _ => exact moves_raise

theorem dedupAndPromote_moves_on (doc : Document) (hid : doc.id = d) (key : ObjectKey)
    (v : ValidationResult) :
    MovesOn sv d .quarantined retried (dedupAndPromote doc key v none) := by
  refine moves_bind fun existing => ?_
  cases existing with
  | none => exact promote_moves_on hid key v
  | some e =>
    show MovesOn sv d _ retried (if e.id ≠ doc.id then _ else _)
    split
    · exact moves_bind fun _ => moves_update_bind _ hid nofun
    · exact promote_moves_on hid key v

theorem process_moves_on (d : DocumentId) :
    MovesOn sv d .quarantined retried (process sv d none) := by
  refine moves_getById_bind fun doc hid hs => ?_
  show MovesOn sv d _ retried (if _ then _ else _)
  rw [if_neg (by rw [hs]; decide)]
  refine moves_bind fun r => ?_
  cases r with
  | error e => exact moves_update_bind (unreadable doc) hid nofun
  | ok data =>
    show MovesOn sv d _ retried (if _ then _ else _)
    split
    · exact dedupAndPromote_moves_on { doc with checksum := some _ } hid _ _
    · exact moves_update_bind _ hid nofun

end ScanJobHandler

theorem extraction_moves_on (d : DocumentId) :
    MovesOn sv d .validated StageOutcome.Retries (ExtractionJobHandler.process sv d) := by
  refine moves_getById_bind fun doc hid hs => ?_
  show MovesOn sv d _ _ (if _ then _ else _)
  rw [if_neg (not_not.mpr hs)]
  cases hraw : doc.rawPath with
  | none => exact markFailed_moves hid (by simp)
  | some rawKey =>
    refine moves_bind fun r => ?_
    cases r with
    | error e => exact moves_ret (retry_retries _ _ _)
    | ok data =>
      show MovesOn sv d _ _ (ExtractionJobHandler.extract sv doc data)
      unfold ExtractionJobHandler.extract
      split
      · exact markFailed_moves hid (by simp)
      · exact moves_raise
      · refine moves_bind fun r => ?_
        cases r with
        | error e => exact moves_ret (retry_retries _ _ _)
        | ok _ => exact moves_update_bind _ hid (by simp)

theorem normalization_moves_on (d : DocumentId) :
    MovesOn sv d .extracted StageOutcome.Retries (NormalizationJobHandler.process sv d) := by
  refine moves_getById_bind fun doc hid hs => ?_
  show MovesOn sv d _ _ (if _ then _ else _)
  rw [if_neg (not_not.mpr hs)]
  refine moves_bind fun r => ?_
  cases r with
  | error e => exact moves_ret (retry_retries _ _ _)
  | ok extraction =>
    show MovesOn sv d _ _ (if _ then _ else _)
    split
    · refine moves_bind fun r => ?_
      cases r with
      | error e => exact moves_ret (retry_retries _ _ _)
      | ok _ => exact moves_update_bind _ hid nofun
    · exact markFailed_moves hid nofun

theorem chunking_moves_on (d : DocumentId) :
    MovesOn sv d .awaitingClassification StageOutcome.Retries
      (ChunkingJobHandler.process sv d) := by
  refine moves_getById_bind fun doc hid hs => ?_
  show MovesOn sv d _ _ (if _ then _ else _)
  rw [if_neg (not_not.mpr hs)]
  refine moves_bind fun r => ?_
  cases r with
  | error e => exact moves_ret (retry_retries _ _ _)
  | ok normalized =>
    show MovesOn sv d _ _ (if _ then _ else _)
    split
    · exact markFailed_moves hid nofun
    · refine moves_bind fun r => ?_
      cases r with
      | error e => exact moves_ret (retry_retries _ _ _)
      | ok _ => exact moves_update_bind _ hid nofun

theorem embedding_moves_on (d : DocumentId) :
    MovesOn sv d .chunked StageOutcome.Retries (EmbeddingJobHandler.process sv d) := by
  refine moves_getById_bind fun doc hid hs => ?_
  show MovesOn sv d _ _ (if _ then _ else _)
  rw [if_neg (not_not.mpr hs)]
  refine moves_bind fun language => ?_
  show MovesOn sv d _ _ (if _ then _ else _)
  split
  · exact moves_update_bind _ hid nofun
  · refine moves_bind fun chunks => ?_
    show MovesOn sv d _ _ (if _ then _ else _)
    split
    · exact markFailed_moves hid nofun
    · refine moves_bind fun r => ?_
      cases r with
      | error e =>
        cases e with
        | valueError m => exact markFailed_moves hid nofun
        | _ => exact moves_ret (retry_retries _ _ _)
      | ok result =>
        show MovesOn sv d _ _ (if _ then _ else _)
        split
        · exact markFailed_moves hid nofun
        · refine moves_bind fun r => ?_
          cases r with
          | error e => exact moves_ret (retry_retries _ _ _)
          | ok _ => exact moves_update_bind _ hid nofun

/-- The stage a document waits for moves it on, or has its job retried. -/
theorem processJob_moves {stage : JobStage} (hn : nextStage h = some stage) (d : DocumentId) :
    MovesOn sv d h (fun o => ∃ m, o = .transient m) (processJob sv stage d) := by
  cases h <;> cases hn
  · exact moves_outcome (ScanJobHandler.process_moves_on d)
  · exact moves_outcome (extraction_moves_on d)
  · exact moves_outcome (normalization_moves_on d)
  · exact moves_outcome (chunking_moves_on d)
  · exact moves_outcome (embedding_moves_on d)

end Moves

end KnowledgeBase
