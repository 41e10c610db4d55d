import KnowledgeBase.LeaseFencing
import KnowledgeBase.StageHandlers

/-! The running system: uploads and workers over the shared state, each with the rest
of its program. A worker takes its jobs from the queue and ends them there. -/

namespace KnowledgeBase

open Program

structure Fleet where
  worker : WorkerId → BaseWorker
  named : ∀ i, (worker i).workerId = i

structure RunningState where
  world : World
  current : WorkerId → Option JobItem
  renewers : WorkerId → List JobItem
  rest : WorkerId → Stage JobOutcome
  uploads : DocumentId → Option (Stage UploadResponse)

inductive RunAction where
  | tick (seconds : Nat)
  | receive (id : DocumentId) (filename : String) (data : Bytes) (request : UploadRequest)
      (mimeType : String)
  | upload (id : DocumentId) (luck : Luck)
  | endUpload (id : DocumentId)
  | pickJob (i : WorkerId) (j : JobId)
  | work (i : WorkerId) (luck : Luck)
  | renewOnce (i : WorkerId) (item : JobItem)
  | finishJob (i : WorkerId)
  | reapStuckJobs (i : WorkerId)
  | crash (i : WorkerId)

/-- How `execute_job` ends the job, once its program has come to an end. -/
def executeJob (w : BaseWorker) : Stage JobOutcome → Option QueueAction
  | .ret .completed => some (.markJobCompleted w)
  | .ret (.transient message) => some (.handleJobRetryOrFail w message)
  | .ret (.permanent message) => some (.markJobFailed w message)
  | .raise e => some (.handleJobRetryOrFail w s!"Unexpected error: {e.message}")
  | .call _ _ => none

namespace RunningState

/-- The part of the state that is the queue's. -/
def queue (s : RunningState) : QueueState :=
  { now := s.world.now, jobs := s.world.jobs, current := s.current, renewers := s.renewers }

def withQueue (s : RunningState) (q : QueueState) : RunningState :=
  { s with
    world := { s.world with now := q.now, jobs := q.jobs }
    current := q.current
    renewers := q.renewers }

def queueAction (fleet : Fleet) (s : RunningState) : RunAction → Option QueueAction
  | .tick seconds => some (.tick seconds)
  | .pickJob i j => some (.pickJob (fleet.worker i) j)
  | .renewOnce i item => some (.renewOnce (fleet.worker i) item)
  | .finishJob i => executeJob (fleet.worker i) (s.rest i)
  | .reapStuckJobs i => some (.reapStuckJobs (fleet.worker i))
  | .crash i => some (.crash (fleet.worker i))
  | _ => none

/-- A worker that has just claimed a job starts on the program of its stage. -/
def started (sv : Services) (s : RunningState) (a : RunAction) (q : QueueState) :
    WorkerId → Stage JobOutcome :=
  match a with
  | .pickJob i _ =>
    match q.current i with
    | none => s.rest
    | some item => Function.update s.rest i (processJob sv item.stage item.documentId)
  | _ => s.rest

def step (sv : Services) (fleet : Fleet) (s : RunningState) (a : RunAction) :
    Option RunningState :=
  match a with
  | .receive id filename data request mimeType =>
    -- the id of an upload is a fresh one
    if (s.uploads id).isNone then
      some { s with
        uploads := Function.update s.uploads id
          (some (UploadService.receive id filename data request mimeType)) }
    else none
  | .upload id luck =>
    match s.uploads id with
    | none => none
    | some p =>
      (Program.step (effect sv luck) p s.world).map fun (q, w) =>
        { s with world := w, uploads := Function.update s.uploads id (some q) }
  | .endUpload id => some { s with uploads := Function.update s.uploads id none }
  | .work i luck =>
    if (s.current i).isSome then
      (Program.step (effect sv luck) (s.rest i) s.world).map fun (q, w) =>
        { s with world := w, rest := Function.update s.rest i q }
    else none
  | a =>
    match s.queueAction fleet a with
    | none => none
    | some act =>
      (s.queue.step act).map fun q => { s.withQueue q with rest := s.started sv a q }

/-- Everything one step can do. -/
inductive StepCases (sv : Services) (fleet : Fleet) (s : RunningState) :
    RunAction → RunningState → Prop
  | receive (id : DocumentId) (filename : String) (data : Bytes) (request : UploadRequest)
      (mimeType : String) (hfree : s.uploads id = none) :
      StepCases sv fleet s (.receive id filename data request mimeType) { s with
        uploads := Function.update s.uploads id
          (some (UploadService.receive id filename data request mimeType)) }
  | upload (id : DocumentId) (luck : Luck) (p q : Stage UploadResponse) (w : World)
      (hp : s.uploads id = some p) (h : Program.step (effect sv luck) p s.world = some (q, w)) :
      StepCases sv fleet s (.upload id luck)
        { s with world := w, uploads := Function.update s.uploads id (some q) }
  | endUpload (id : DocumentId) :
      StepCases sv fleet s (.endUpload id)
        { s with uploads := Function.update s.uploads id none }
  | work (i : WorkerId) (luck : Luck) (item : JobItem) (q : Stage JobOutcome) (w : World)
      (hi : s.current i = some item)
      (h : Program.step (effect sv luck) (s.rest i) s.world = some (q, w)) :
      StepCases sv fleet s (.work i luck)
        { s with world := w, rest := Function.update s.rest i q }
  | queue (a : RunAction) (act : QueueAction) (q : QueueState)
      (ha : s.queueAction fleet a = some act) (h : s.queue.step act = some q) :
      StepCases sv fleet s a { s.withQueue q with rest := s.started sv a q }

theorem step_cases {sv : Services} {fleet : Fleet} {s t : RunningState} {a : RunAction}
    (h : s.step sv fleet a = some t) : StepCases sv fleet s a t := by
  have hqueue : ∀ a, (match s.queueAction fleet a with
      | none => none
      | some act => (s.queue.step act).map fun q =>
          ({ s.withQueue q with rest := s.started sv a q } : RunningState)) = some t →
      StepCases sv fleet s a t := by
    intro a h
    split at h
    · cases h
    · rename_i act hact
      obtain ⟨q, hq, rfl⟩ := Option.map_eq_some_iff.mp h
      exact .queue a act q hact hq
  cases a with
  | receive id filename data request mimeType =>
    simp only [step] at h
    split at h
    · rename_i hfree
      obtain rfl := Option.some.inj h
      exact .receive id filename data request mimeType (Option.isNone_iff_eq_none.mp hfree)
    · cases h
  | upload id luck =>
    simp only [step] at h
    split at h
    · cases h
    · rename_i p hp
      obtain ⟨⟨q, w⟩, hq, rfl⟩ := Option.map_eq_some_iff.mp h
      exact .upload id luck p q w hp hq
  | endUpload id =>
    obtain rfl := Option.some.inj h
    exact .endUpload id
  | work i luck =>
    simp only [step] at h
    split at h
    · rename_i hi
      obtain ⟨item, hitem⟩ := Option.isSome_iff_exists.mp hi
      obtain ⟨⟨q, w⟩, hq, rfl⟩ := Option.map_eq_some_iff.mp h
      exact .work i luck item q w hitem hq
    · cases h
  | tick seconds => exact hqueue _ h
  | pickJob i j => exact hqueue _ h
  | renewOnce i item => exact hqueue _ h
  | finishJob i => exact hqueue _ h
  | reapStuckJobs i => exact hqueue _ h
  | crash i => exact hqueue _ h

/-- Of the queue's actions a worker takes those that go with its own state. -/
inductive QueueCases (fleet : Fleet) (s : RunningState) : RunAction → QueueAction → Prop
  | tick (seconds : Nat) : QueueCases fleet s (.tick seconds) (.tick seconds)
  | pickJob (i : WorkerId) (j : JobId) :
      QueueCases fleet s (.pickJob i j) (.pickJob (fleet.worker i) j)
  | renewOnce (i : WorkerId) (item : JobItem) :
      QueueCases fleet s (.renewOnce i item) (.renewOnce (fleet.worker i) item)
  | completed (i : WorkerId) (h : s.rest i = .ret .completed) :
      QueueCases fleet s (.finishJob i) (.markJobCompleted (fleet.worker i))
  | failed (i : WorkerId) (message : String) (h : s.rest i = .ret (.permanent message)) :
      QueueCases fleet s (.finishJob i) (.markJobFailed (fleet.worker i) message)
  | retried (i : WorkerId) (message : String)
      (h : (∃ o, s.rest i = .ret o) ∨ ∃ e, s.rest i = .raise e) :
      QueueCases fleet s (.finishJob i) (.handleJobRetryOrFail (fleet.worker i) message)
  | reapStuckJobs (i : WorkerId) :
      QueueCases fleet s (.reapStuckJobs i) (.reapStuckJobs (fleet.worker i))
  | crash (i : WorkerId) : QueueCases fleet s (.crash i) (.crash (fleet.worker i))

theorem queue_cases {fleet : Fleet} {s : RunningState} {a : RunAction} {act : QueueAction}
    (h : s.queueAction fleet a = some act) : QueueCases fleet s a act := by
  cases a with
  | finishJob i =>
    simp only [queueAction] at h
    cases hr : s.rest i with
    | ret o =>
      rw [hr] at h
      cases o with
      | completed =>
        obtain rfl := Option.some.inj h
        exact .completed i hr
      | transient message =>
        obtain rfl := Option.some.inj h
        exact .retried i message (.inl ⟨_, hr⟩)
      | permanent message =>
        obtain rfl := Option.some.inj h
        exact .failed i message hr
    | raise e =>
      rw [hr] at h
      obtain rfl := Option.some.inj h
      exact .retried i _ (.inr ⟨e, hr⟩)
    | call op next =>
      rw [hr] at h
      cases h
  | tick | pickJob | renewOnce | reapStuckJobs | crash =>
    obtain rfl := Option.some.inj h
    constructor
  | receive | upload | endUpload | work => cases h

/-- A worker that stays on its job stays with the rest of its program. -/
theorem started_of_current {sv : Services} {fleet : Fleet} {s : RunningState} {a : RunAction}
    {act : QueueAction} {q : QueueState} {i : WorkerId} {item : JobItem}
    (ha : QueueCases fleet s a act) (h : s.queue.step act = some q)
    (hi : s.current i = some item) : s.started sv a q i = s.rest i := by
  cases ha with
  | pickJob i' j =>
    have hne : i ≠ i' := by
      rintro rfl
      simp only [QueueState.step] at h
      split at h
      · rename_i hfree
        have hfree' : (s.current i).isNone = true := fleet.named i ▸ hfree
        rw [hi] at hfree'
        cases hfree'
      · cases h
    simp only [started]
    cases q.current i' with
    | none => rfl
    | some item' => exact Function.update_of_ne hne _ _
  | _ => rfl

/-- Nothing runs and nothing is stored. -/
structure Fresh (s : RunningState) : Prop where
  current : ∀ i, s.current i = none
  uploads : ∀ id, s.uploads id = none
  documents : s.world.documents.rows = []
  chunks : s.world.chunks = []
  jobs : s.world.jobs = []

end RunningState

end KnowledgeBase
