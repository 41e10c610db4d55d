import Mathlib
import KnowledgeBase.Table
import KnowledgeBase.Transition

/-! The jobs table and the workers that share it. Every statement a worker sends
to the table is one transaction; between two of them a worker may stall for any
time, lose its lease, or die. -/

namespace KnowledgeBase

inductive JobStage where
  | scan | extract | normalize | chunk | embed
  deriving DecidableEq, Repr

inductive JobStatus where
  | pending | running | completed | failed
  deriving DecidableEq, Repr

abbrev JobId := Nat
abbrev DocumentId := Nat
abbrev WorkerId := Nat

/-- A row of the jobs table. Times are seconds of the database clock. -/
structure Job where
  jobId : JobId
  documentId : DocumentId
  stage : JobStage
  status : JobStatus
  priority : Int
  retryCount : Nat
  scheduledAt : Nat
  startedAt : Option Nat
  finishedAt : Option Nat
  workerId : Option WorkerId
  leaseExpiresAt : Option Nat
  errorMessage : Option String
  deriving DecidableEq, Repr

/-- What a worker keeps of the job it claimed. -/
structure JobItem where
  jobId : JobId
  documentId : DocumentId
  stage : JobStage
  workerId : WorkerId
  retryCount : Nat
  leaseExpiresAt : Nat
  deriving DecidableEq, Repr

structure BaseWorker where
  stage : JobStage
  workerId : WorkerId
  leaseSeconds : Nat
  maxRetries : Nat
  backoffBaseSeconds : Nat
  backoffMaxSeconds : Nat
  deriving DecidableEq, Repr

/-- A row as an upload or a finished stage inserts it. -/
def newJob (j : JobId) (d : DocumentId) (stage : JobStage) (now : Nat) : Job :=
  { jobId := j, documentId := d, stage, status := .pending, priority := 0, retryCount := 0,
    scheduledAt := now, startedAt := none, finishedAt := none, workerId := none,
    leaseExpiresAt := none, errorMessage := none }

abbrev Jobs := List Job

def Jobs.job (jobs : Jobs) (j : JobId) : Option Job := Table.lookup Job.jobId jobs j

namespace BaseWorker

def claimable (w : BaseWorker) (now : Nat) (job : Job) : Bool :=
  job.stage = w.stage && job.status = .pending && job.scheduledAt ≤ now

/-- `ORDER BY priority DESC, scheduled_at ASC`. -/
def before (a b : Job) : Bool :=
  b.priority < a.priority || (a.priority = b.priority && a.scheduledAt < b.scheduledAt)

def claim (w : BaseWorker) (now : Nat) (job : Job) : Job :=
  { job with
    status := .running, startedAt := some now, workerId := some w.workerId,
    leaseExpiresAt := some (now + w.leaseSeconds) }

def item (w : BaseWorker) (now : Nat) (job : Job) : JobItem :=
  { jobId := job.jobId, documentId := job.documentId, stage := job.stage,
    workerId := w.workerId, retryCount := job.retryCount,
    leaseExpiresAt := now + w.leaseSeconds }

/-- The database may return any of the rows that tie for first place, so the row
is an argument; it has to be claimable with none of the others before it. -/
def pickJob (w : BaseWorker) (now : Nat) (j : JobId) (jobs : Jobs) : Option (Jobs × JobItem) :=
  match jobs.job j with
  | none => none
  | some job =>
    if w.claimable now job &&
        jobs.all (fun other => !(w.claimable now other && before other job)) then
      some (Table.update (fun r => r.jobId = j) (w.claim now) jobs, w.item now job)
    else none

def renew (w : BaseWorker) (now : Nat) (r : Job) : Job :=
  { r with leaseExpiresAt := some (now + w.leaseSeconds) }

def renewOnce (w : BaseWorker) (now : Nat) (item : JobItem) (jobs : Jobs) : Jobs :=
  Table.update
    (fun r => r.jobId = item.jobId && r.status = .running && r.workerId = some w.workerId)
    (w.renew now) jobs

/-- `status = 'RUNNING' AND lease_expires_at < NOW()`; a null lease never lapses. -/
def lapsed (now : Nat) (r : Job) : Bool :=
  r.status = .running && r.leaseExpiresAt.any (· < now)

def expire (now : Nat) (r : Job) : Job :=
  { r with
    status := .failed, workerId := none, leaseExpiresAt := none, finishedAt := some now,
    errorMessage := some "Job failed: exceeded maximum retries via lease expiry recovery." }

def reclaim (now : Nat) (r : Job) : Job :=
  { r with
    status := .pending, retryCount := r.retryCount + 1, workerId := none,
    leaseExpiresAt := none, scheduledAt := now + 5 }

def reapStuckJobs (w : BaseWorker) (now : Nat) (jobs : Jobs) : Jobs :=
  Table.update (fun r => lapsed now r && r.retryCount < w.maxRetries) (reclaim now)
    (Table.update (fun r => lapsed now r && w.maxRetries ≤ r.retryCount) (expire now) jobs)

def complete (now : Nat) (r : Job) : Job :=
  { r with status := .completed, finishedAt := some now, leaseExpiresAt := none }

def markJobCompleted (now : Nat) (item : JobItem) (jobs : Jobs) : Jobs :=
  Table.update (fun r => r.jobId = item.jobId) (complete now) jobs

/-- `str(error_message)[:500]`. -/
def errMsg (message : String) : String := String.ofList (message.toList.take 500)

def fail (now : Nat) (message : String) (r : Job) : Job :=
  { r with
    status := .failed, finishedAt := some now, leaseExpiresAt := none,
    errorMessage := some (errMsg message) }

def markJobFailed (now : Nat) (item : JobItem) (message : String) (jobs : Jobs) : Jobs :=
  Table.update (fun r => r.jobId = item.jobId) (fail now message) jobs

def backoff (w : BaseWorker) (retryCount : Nat) : Nat :=
  min w.backoffMaxSeconds (w.backoffBaseSeconds * 2 ^ retryCount)

def retry (now delay : Nat) (message : String) (r : Job) : Job :=
  { r with
    status := .pending, retryCount := r.retryCount + 1, scheduledAt := now + delay,
    workerId := none, leaseExpiresAt := none, errorMessage := some (errMsg message) }

/-- The decision reads the retry count the item was claimed with, not the row's. -/
def handleJobRetryOrFail (w : BaseWorker) (now : Nat) (item : JobItem) (message : String)
    (jobs : Jobs) : Jobs :=
  if item.retryCount < w.maxRetries then
    Table.update (fun r => r.jobId = item.jobId)
      (retry now (w.backoff item.retryCount) message) jobs
  else
    markJobFailed now item s!"Max retries ({w.maxRetries}) exceeded: {errMsg message}" jobs

end BaseWorker

/-- The table, the clock, the job each worker is on, and the renewal threads of
each worker that may still write (leaving the `with` block waits five seconds for
the thread, no longer). -/
structure QueueState where
  now : Nat
  jobs : Jobs
  current : WorkerId → Option JobItem
  renewers : WorkerId → List JobItem

inductive QueueAction where
  | tick (seconds : Nat)
  | enqueue (j : JobId) (d : DocumentId) (stage : JobStage)
  | pickJob (w : BaseWorker) (j : JobId)
  | renewOnce (w : BaseWorker) (item : JobItem)
  | markJobCompleted (w : BaseWorker)
  | markJobFailed (w : BaseWorker) (message : String)
  | handleJobRetryOrFail (w : BaseWorker) (message : String)
  | reapStuckJobs (w : BaseWorker)
  | crash (w : BaseWorker)

namespace QueueState

def job (s : QueueState) (j : JobId) : Option Job := s.jobs.job j

/-- A worker ends its job with one write to the row, made from its own item. -/
def finish (s : QueueState) (w : BaseWorker) (write : JobItem → Jobs → Jobs) :
    Option QueueState :=
  (s.current w.workerId).map fun item =>
    { s with
      jobs := write item s.jobs
      current := Function.update s.current w.workerId none }

def step (s : QueueState) : QueueAction → Option QueueState
  | .tick seconds => some { s with now := s.now + seconds }
  | .enqueue j d stage =>
    if (s.job j).isNone then some { s with jobs := s.jobs ++ [newJob j d stage s.now] } else none
  | .pickJob w j =>
    if (s.current w.workerId).isNone then
      (w.pickJob s.now j s.jobs).map fun claimed =>
        { s with
          jobs := claimed.1
          current := Function.update s.current w.workerId (some claimed.2)
          renewers := Function.update s.renewers w.workerId
            (claimed.2 :: s.renewers w.workerId) }
    else none
  | .renewOnce w item =>
    if item ∈ s.renewers w.workerId then
      some { s with jobs := w.renewOnce s.now item s.jobs }
    else none
  | .markJobCompleted w => s.finish w (BaseWorker.markJobCompleted s.now)
  | .markJobFailed w message => s.finish w (BaseWorker.markJobFailed s.now · message)
  | .handleJobRetryOrFail w message => s.finish w (w.handleJobRetryOrFail s.now · message)
  | .reapStuckJobs w => some { s with jobs := w.reapStuckJobs s.now s.jobs }
  | .crash w =>
    some { s with
      current := Function.update s.current w.workerId none
      renewers := Function.update s.renewers w.workerId [] }

/-- No worker is on a job yet; the table holds whatever it holds. -/
def Idle (s : QueueState) : Prop :=
  (∀ w, s.current w = none) ∧ ∀ w, s.renewers w = []

/-- The row still says that the worker has the job. -/
def Holds (s : QueueState) (w : WorkerId) (j : JobId) : Prop :=
  ∃ r, s.job j = some r ∧ r.status = .running ∧ r.workerId = some w

end QueueState

end KnowledgeBase
