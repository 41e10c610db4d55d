import KnowledgeBase.JobQueue

/-! What becomes of a claim once the row no longer carries it. Renewal asks the
row who holds it; the three writes that end a job do not, so they are safe only
from a worker that still holds the row. -/

namespace KnowledgeBase

open BaseWorker

/-- Everything one step of the queue can do to one row. -/
inductive RowStep (s : QueueState) : QueueAction → Job → Job → Prop
  | kept (a : QueueAction) (r : Job) : RowStep s a r r
  | claimed (w : BaseWorker) (r : Job) (hp : r.status = .pending)
      (hc : s.current w.workerId = none) :
      RowStep s (.pickJob w r.jobId) r (w.claim s.now r)
  | renewed (w : BaseWorker) (item : JobItem) (r : Job) (hr : r.status = .running)
      (hw : r.workerId = some w.workerId) :
      RowStep s (.renewOnce w item) r (w.renew s.now r)
  | completed (w : BaseWorker) (item : JobItem) (r : Job)
      (hc : s.current w.workerId = some item) (hj : r.jobId = item.jobId) :
      RowStep s (.markJobCompleted w) r (complete s.now r)
  | failed (w : BaseWorker) (item : JobItem) (message : String) (r : Job)
      (hc : s.current w.workerId = some item) (hj : r.jobId = item.jobId) :
      RowStep s (.markJobFailed w message) r (fail s.now message r)
  | retried (w : BaseWorker) (item : JobItem) (message : String) (r : Job)
      (hc : s.current w.workerId = some item) (hj : r.jobId = item.jobId)
      (hm : item.retryCount < w.maxRetries) :
      RowStep s (.handleJobRetryOrFail w message) r
        (retry s.now (w.backoff item.retryCount) message r)
  | exhausted (w : BaseWorker) (item : JobItem) (message more : String) (r : Job)
      (hc : s.current w.workerId = some item) (hj : r.jobId = item.jobId)
      (hm : w.maxRetries ≤ item.retryCount) :
      RowStep s (.handleJobRetryOrFail w message) r (fail s.now more r)
  | expired (w : BaseWorker) (r : Job) (hl : lapsed s.now r = true)
      (hm : w.maxRetries ≤ r.retryCount) :
      RowStep s (.reapStuckJobs w) r (expire s.now r)
  | reclaimed (w : BaseWorker) (r : Job) (hl : lapsed s.now r = true)
      (hm : r.retryCount < w.maxRetries) :
      RowStep s (.reapStuckJobs w) r (reclaim s.now r)

/-- The document and the stage of a row are for good, and retries only add up. -/
theorem RowStep.same {s : QueueState} {a : QueueAction} {r r' : Job} (h : RowStep s a r r') :
    r'.documentId = r.documentId ∧ r'.stage = r.stage ∧ r.retryCount ≤ r'.retryCount := by
  cases h with
  | retried | reclaimed => exact ⟨rfl, rfl, Nat.le_succ _⟩
  | _ => exact ⟨rfl, rfl, Nat.le_refl _⟩

namespace QueueState

theorem job_id {s : QueueState} {j : JobId} {r : Job} (hj : s.job j = some r) : r.jobId = j :=
  Table.key_of_lookup hj

theorem job_of_update {s t : QueueState} {j : JobId} {r : Job} {p : Job → Bool} {f : Job → Job}
    (ht : t.jobs = Table.update p f s.jobs) (hf : ∀ r, (f r).jobId = r.jobId)
    (hj : s.job j = some r) : t.job j = some (if p r then f r else r) := by
  have hj' : Table.lookup Job.jobId s.jobs j = some r := hj
  rw [job, Jobs.job, ht, Table.lookup_update hf, hj', Option.map_some]

/-- A write addressed to the item's row, and what it leaves of each row. -/
theorem job_of_write {s t : QueueState} {j k : JobId} {r : Job} {f : Job → Job}
    (ht : t.jobs = Table.update (fun r => r.jobId = k) f s.jobs)
    (hf : ∀ r, (f r).jobId = r.jobId) (hj : s.job j = some r) :
    ∃ r', t.job j = some r' ∧ (r' = r ∨ r.jobId = k ∧ r' = f r) := by
  refine ⟨_, job_of_update ht hf hj, ?_⟩
  by_cases hk : r.jobId = k
  · exact .inr ⟨hk, by simp [hk]⟩
  · exact .inl (by simp [hk])

theorem finish_cases {s t : QueueState} {w : BaseWorker} {write : JobItem → Jobs → Jobs}
    (h : s.finish w write = some t) :
    ∃ item, s.current w.workerId = some item ∧ t.jobs = write item s.jobs := by
  obtain ⟨item, hc, rfl⟩ := Option.map_eq_some_iff.mp h
  exact ⟨item, hc, rfl⟩

theorem pickJob_cases {w : BaseWorker} {now : Nat} {k : JobId} {jobs jobs' : Jobs}
    {item : JobItem} (h : w.pickJob now k jobs = some (jobs', item)) :
    ∃ row, jobs.job k = some row ∧ row.status = .pending ∧ item = w.item now row ∧
      jobs' = Table.update (fun r => r.jobId = k) (w.claim now) jobs := by
  simp only [pickJob] at h
  split at h
  · cases h
  · rename_i row hrow
    split at h
    · rename_i hcl
      simp only [Option.some.injEq, Prod.mk.injEq] at h
      simp only [claimable, Bool.and_eq_true, decide_eq_true_eq] at hcl
      exact ⟨row, hrow, hcl.1.1.2, h.2.symm, h.1.symm⟩
    · cases h

theorem step_row {s t : QueueState} {a : QueueAction} {j : JobId} {r : Job}
    (h : s.step a = some t) (hj : s.job j = some r) :
    ∃ r', t.job j = some r' ∧ RowStep s a r r' := by
  have hid := job_id hj
  cases a with
  | tick seconds =>
    simp only [step, Option.some.injEq] at h
    exact ⟨r, h ▸ hj, .kept _ _⟩
  | enqueue k d stage =>
    simp only [step] at h
    split at h
    · simp only [Option.some.injEq] at h
      refine ⟨r, ?_, .kept _ _⟩
      have hj' : Table.lookup Job.jobId s.jobs j = some r := hj
      simp [← h, job, Jobs.job, Table.lookup_append, hj']
    · cases h
  | pickJob w k =>
    simp only [step] at h
    split at h
    · rename_i hc
      obtain ⟨⟨jobs, item⟩, hp, rfl⟩ := Option.map_eq_some_iff.mp h
      obtain ⟨row, hrow, hpend, -, hjobs⟩ := pickJob_cases hp
      obtain ⟨r', hr', he⟩ := job_of_write (t := ⟨s.now, jobs, s.current, s.renewers⟩) hjobs
        (fun _ => rfl) hj
      refine ⟨r', hr', ?_⟩
      rcases he with rfl | ⟨rfl, rfl⟩
      · exact .kept _ _
      · have hr : row = r := Option.some.inj (hrow.symm.trans (hid ▸ hj))
        exact .claimed w r (hr ▸ hpend) (by simpa using hc)
    · cases h
  | renewOnce w item =>
    simp only [step] at h
    split at h
    · simp only [Option.some.injEq] at h
      refine ⟨_, job_of_update (f := w.renew s.now) (by rw [← h]; rfl) (fun _ => rfl) hj, ?_⟩
      split
      · rename_i hp
        simp only [Bool.and_eq_true, decide_eq_true_eq] at hp
        exact .renewed w item r hp.1.2 hp.2
      · exact .kept _ _
    · cases h
  | markJobCompleted w =>
    obtain ⟨item, hc, ht⟩ := finish_cases h
    obtain ⟨r', hr', rfl | ⟨hk, rfl⟩⟩ := job_of_write ht (fun _ => rfl) hj
    · exact ⟨r', hr', .kept _ _⟩
    · exact ⟨_, hr', .completed w item r hc hk⟩
  | markJobFailed w message =>
    obtain ⟨item, hc, ht⟩ := finish_cases h
    obtain ⟨r', hr', rfl | ⟨hk, rfl⟩⟩ := job_of_write ht (fun _ => rfl) hj
    · exact ⟨r', hr', .kept _ _⟩
    · exact ⟨_, hr', .failed w item message r hc hk⟩
  | handleJobRetryOrFail w message =>
    obtain ⟨item, hc, ht⟩ := finish_cases h
    by_cases hm : item.retryCount < w.maxRetries
    · simp only [BaseWorker.handleJobRetryOrFail, hm, if_true] at ht
      obtain ⟨r', hr', rfl | ⟨hk, rfl⟩⟩ := job_of_write ht (fun _ => rfl) hj
      · exact ⟨r', hr', .kept _ _⟩
      · exact ⟨_, hr', .retried w item message r hc hk hm⟩
    · simp only [BaseWorker.handleJobRetryOrFail, hm, if_false] at ht
      obtain ⟨r', hr', rfl | ⟨hk, rfl⟩⟩ := job_of_write ht (fun _ => rfl) hj
      · exact ⟨r', hr', .kept _ _⟩
      · exact ⟨_, hr', .exhausted w item message _ r hc hk (by omega)⟩
  | reapStuckJobs w =>
    simp only [step, Option.some.injEq] at h
    let u : QueueState := { s with
      jobs := Table.update (fun r => lapsed s.now r && w.maxRetries ≤ r.retryCount)
        (expire s.now) s.jobs }
    have hu := job_of_update (t := u) (f := expire s.now) rfl (fun _ => rfl) hj
    have ht := job_of_update (s := u) (t := t) (f := reclaim s.now) (by rw [← h]; rfl)
      (fun _ => rfl) hu
    refine ⟨_, ht, ?_⟩
    by_cases hl : lapsed s.now r = true
    · by_cases hm : r.retryCount < w.maxRetries
      · have hm' : ¬ w.maxRetries ≤ r.retryCount := by omega
        simpa [hl, hm, hm'] using RowStep.reclaimed w r hl hm
      · have hm' : w.maxRetries ≤ r.retryCount := by omega
        have hx : lapsed s.now (expire s.now r) = false := by simp [lapsed, expire]
        simpa [hl, hm', hx] using RowStep.expired w r hl hm'
    · simpa [hl] using RowStep.kept (.reapStuckJobs w) r
  | crash w =>
    simp only [step, Option.some.injEq] at h
    exact ⟨r, h ▸ hj, .kept _ _⟩

/-- A key with no row stays without one, but for the insert of a new job. -/
theorem step_absent {s t : QueueState} {a : QueueAction} {j : JobId}
    (h : s.step a = some t) (hj : s.job j = none) :
    t.job j = none ∨ ∃ d stage, a = .enqueue j d stage ∧
      t.job j = some (newJob j d stage s.now) := by
  have hj' : Table.lookup Job.jobId s.jobs j = none := hj
  have hupd : ∀ {jobs : Jobs} (p : Job → Bool) {f : Job → Job}, (∀ r, (f r).jobId = r.jobId) →
      Jobs.job jobs j = none → Jobs.job (Table.update p f jobs) j = none := by
    intro jobs p f hf hn
    have hn' : Table.lookup Job.jobId jobs j = none := hn
    rw [Jobs.job, Table.lookup_update hf, hn', Option.map_none]
  cases a with
  | tick seconds =>
    simp only [step, Option.some.injEq] at h
    exact .inl (h ▸ hj)
  | enqueue k d stage =>
    simp only [step] at h
    split at h
    · simp only [Option.some.injEq] at h
      have ht : t.job j = if k = j then some (newJob k d stage s.now) else none := by
        simp [← h, job, Jobs.job, Table.lookup_append, hj', Table.lookup_cons, newJob]
      by_cases hk : k = j
      · subst hk
        exact .inr ⟨d, stage, rfl, by simpa using ht⟩
      · exact .inl (by simpa [hk] using ht)
    · cases h
  | pickJob w k =>
    simp only [step] at h
    split at h
    · obtain ⟨⟨jobs, item⟩, hp, rfl⟩ := Option.map_eq_some_iff.mp h
      obtain ⟨row, -, -, -, rfl⟩ := pickJob_cases hp
      exact .inl (hupd _ (fun _ => rfl) hj)
    · cases h
  | renewOnce w item =>
    simp only [step] at h
    split at h
    · simp only [Option.some.injEq] at h
      exact .inl (h ▸ hupd _ (f := w.renew s.now) (fun _ => rfl) hj)
    · cases h
  | markJobCompleted w =>
    obtain ⟨item, -, ht⟩ := finish_cases h
    exact .inl ((congrArg (Jobs.job · j) ht).trans (hupd _ (fun _ => rfl) hj))
  | markJobFailed w message =>
    obtain ⟨item, -, ht⟩ := finish_cases h
    exact .inl ((congrArg (Jobs.job · j) ht).trans (hupd _ (fun _ => rfl) hj))
  | handleJobRetryOrFail w message =>
    obtain ⟨item, -, ht⟩ := finish_cases h
    refine .inl ((congrArg (Jobs.job · j) ht).trans ?_)
    simp only [BaseWorker.handleJobRetryOrFail]
    split <;> exact hupd _ (fun _ => rfl) hj
  | reapStuckJobs w =>
    simp only [step, Option.some.injEq] at h
    exact .inl (h ▸ hupd _ (f := reclaim s.now) (fun _ => rfl)
      (hupd _ (f := expire s.now) (fun _ => rfl) hj))
  | crash w =>
    simp only [step, Option.some.injEq] at h
    exact .inl (h ▸ hj)

end QueueState

/-- The step is the worker taking this job for itself. -/
def QueueAction.claims (w : WorkerId) (j : JobId) : QueueAction → Prop
  | .pickJob w' k => w'.workerId = w ∧ k = j
  | _ => False

/-- Whose claim a step acts under. Reaping acts under nobody's. -/
def QueueAction.worker : QueueAction → Option WorkerId
  | .pickJob w _ | .renewOnce w _ | .markJobCompleted w | .markJobFailed w _
  | .handleJobRetryOrFail w _ => some w.workerId
  | _ => none

/-- The step takes the worker off its job. -/
def QueueAction.leaves (w : WorkerId) : QueueAction → Prop
  | .markJobCompleted w' | .markJobFailed w' _ | .handleJobRetryOrFail w' _ | .crash w' =>
    w'.workerId = w
  | _ => False

namespace QueueState

theorem Holds.of_row {s : QueueState} {w : WorkerId} {j : JobId} {r : Job}
    (h : s.Holds w j) (hj : s.job j = some r) : r.status = .running ∧ r.workerId = some w := by
  obtain ⟨r', hr', hs⟩ := h
  obtain rfl := Option.some.inj (hr'.symm.trans hj)
  exact hs

/-- Nobody comes to hold a job but by picking it. -/
theorem holds_of_step {s t : QueueState} {a : QueueAction} {w : WorkerId} {j : JobId}
    (h : s.step a = some t) (ht : t.Holds w j) : s.Holds w j ∨ a.claims w j := by
  cases hj : s.job j with
  | none =>
    rcases step_absent h hj with hn | ⟨d, stage, -, hn⟩
    · obtain ⟨r, hr, -⟩ := ht
      rw [hn] at hr
      cases hr
    · exact absurd (ht.of_row hn).1 (by simp [newJob])
  | some r =>
    obtain ⟨r', hr', hstep⟩ := step_row h hj
    obtain ⟨hrun, hw⟩ := ht.of_row hr'
    cases hstep with
    | kept => exact .inl ⟨r, hj, hrun, hw⟩
    | claimed w' =>
      exact .inr ⟨Option.some.inj hw, job_id hj⟩
    | renewed w' item _ hrun' hw' => exact .inl ⟨r, hj, hrun', hw⟩
    | completed => cases hrun
    | failed => cases hrun
    | retried => cases hrun
    | exhausted => cases hrun
    | expired => cases hrun
    | reclaimed => cases hrun

/-- A write that ends a job is sent only while the row still carries the claim. -/
def EndsHeld (s : QueueState) : QueueAction → Prop
  | .markJobCompleted w | .markJobFailed w _ | .handleJobRetryOrFail w _ =>
    ∀ item, s.current w.workerId = some item → s.Holds w.workerId item.jobId
  | _ => True

theorem job_eq_of_not_holds {s t : QueueState} {a : QueueAction} {w : WorkerId} {j : JobId}
    (hok : s.EndsHeld a) (h : s.step a = some t) (ha : a.worker = some w)
    (hc : ¬ a.claims w j) (hn : ¬ s.Holds w j) : t.job j = s.job j := by
  cases hj : s.job j with
  | none =>
    rcases step_absent h hj with ht | ⟨d, stage, rfl, -⟩
    · exact ht
    · cases ha
  | some r =>
    obtain ⟨r', hr', hstep⟩ := step_row h hj
    have hid := job_id hj
    cases hstep with
    | kept => exact hr'
    | claimed w' => exact absurd ⟨Option.some.inj ha, hid⟩ hc
    | renewed w' item _ hrun hw' => exact absurd ⟨r, hj, hrun, hw'.trans ha⟩ hn
    | completed w' item _ hcur hk | failed w' item _ _ hcur hk
    | retried w' item _ _ hcur hk | exhausted w' item _ _ _ hcur hk =>
      have hw : w'.workerId = w := Option.some.inj ha
      have hh := hok item hcur
      rw [hw, ← hk, hid] at hh
      exact absurd hh hn
    | expired => cases ha
    | reclaimed => cases ha

/-- A settled row is touched by no step that meets the condition. -/
theorem settled_of_step {s t : QueueState} {a : QueueAction} {j : JobId} {r : Job}
    (hok : s.EndsHeld a) (h : s.step a = some t) (hj : s.job j = some r)
    (hr : r.status = .completed ∨ r.status = .failed) : t.job j = some r := by
  obtain ⟨r', hr', hstep⟩ := step_row h hj
  have hrun : r.status ≠ .running := by rcases hr with hr | hr <;> simp [hr]
  cases hstep with
  | kept => exact hr'
  | claimed w' _ hp => simp [hp] at hr
  | renewed w' item _ hrun' => exact absurd hrun' hrun
  | completed w' item _ hcur hk | failed w' item _ _ hcur hk
  | retried w' item _ _ hcur hk | exhausted w' item _ _ _ hcur hk =>
    have hh := hok item hcur
    rw [← hk, job_id hj] at hh
    exact absurd (hh.of_row hj).1 hrun
  | expired w' _ hl | reclaimed w' _ hl =>
    simp only [lapsed, Bool.and_eq_true, decide_eq_true_eq] at hl
    exact absurd hl.1 hrun

theorem leaves_running {s t : QueueState} {a : QueueAction} {j : JobId} {r r' : Job}
    (hok : s.EndsHeld a) (h : s.step a = some t) (hj : s.job j = some r)
    (hrun : r.status = .running) (hr' : t.job j = some r') (hout : r'.status ≠ .running) :
    (∃ w, a = .reapStuckJobs w) ∨ ∃ w, a.worker = some w ∧ r.workerId = some w := by
  obtain ⟨u, hu, hstep⟩ := step_row h hj
  obtain rfl := Option.some.inj (hr'.symm.trans hu)
  cases hstep with
  | kept => exact absurd hrun hout
  | claimed => exact absurd rfl hout
  | renewed => exact absurd hrun hout
  | completed w' item _ hcur hk | failed w' item _ _ hcur hk
  | retried w' item _ _ hcur hk | exhausted w' item _ _ _ hcur hk =>
    have hh := hok item hcur
    rw [← hk, job_id hj] at hh
    exact .inr ⟨w'.workerId, rfl, (hh.of_row hj).2⟩
  | expired w' | reclaimed w' => exact .inl ⟨w', rfl⟩

end QueueState

open QueueState Transition

/-- Fencing of the runs whose steps all meet `ok`: a worker whose claim has left
the row writes nothing to it until it claims the job anew, a settled job keeps
its status, and a running job is taken off `running` only by its holder or by
the reaper. -/
structure LeaseFencing (ok : QueueState → QueueAction → Prop) : Prop where
  lost : ∀ {init s₁ s₂ s₃ s₄ : QueueState} {pre mid : List QueueAction} {a b : QueueAction}
    {w : WorkerId} {j : JobId}, init.Idle → Runs step ok init pre s₁ →
    ok s₁ a → s₁.step a = some s₂ → s₁.Holds w j → ¬ s₂.Holds w j →
    Runs step ok s₂ mid s₃ → (∀ c ∈ mid, ¬ c.claims w j) →
    ok s₃ b → s₃.step b = some s₄ → b.worker = some w → ¬ b.claims w j →
    s₄.job j = s₃.job j
  settled : ∀ {init s t : QueueState} {pre post : List QueueAction} {j : JobId} {r : Job},
    init.Idle → Runs step ok init pre s → s.job j = some r →
    (r.status = .completed ∨ r.status = .failed) → Runs step ok s post t →
    ∃ r', t.job j = some r' ∧ r'.status = r.status
  leaves : ∀ {init s t : QueueState} {pre : List QueueAction} {a : QueueAction} {j : JobId}
    {r r' : Job}, init.Idle → Runs step ok init pre s → ok s a → s.step a = some t →
    s.job j = some r → r.status = .running → t.job j = some r' → r'.status ≠ .running →
    (∃ w, a = .reapStuckJobs w) ∨ ∃ w, a.worker = some w ∧ r.workerId = some w

/-- When every write that ends a job comes from a worker that still holds the
row, the queue is fenced. -/
theorem leaseFencing_of_endsHeld {ok : QueueState → QueueAction → Prop}
    (hok : ∀ s a, ok s a → EndsHeld s a) : LeaseFencing ok where
  lost := by
    intro init s₁ s₂ s₃ s₄ pre mid a b w j _ _ _ _ _ hlost hmid hno hb hstep hw hc
    have hn : ¬ s₃.Holds w j :=
      hmid.stable (I := fun s => ¬ s.Holds w j) (fun c => c.claims w j)
        (fun s c t hs hc hstep ht => (holds_of_step hstep ht).elim hs hc) hlost hno
    exact job_eq_of_not_holds (hok _ _ hb) hstep hw hc hn
  settled := by
    intro init s t pre post j r _ _ hj hr hpost
    refine ⟨r, ?_, rfl⟩
    exact hpost.invariant (I := fun s => s.job j = some r)
      (fun s a t hs ha hstep => settled_of_step (hok s a ha) hstep hs hr) hj
  leaves := by
    intro init s t pre a j r r' _ _ ha h hj hrun hr' hout
    exact leaves_running (hok s a ha) h hj hrun hr' hout

/-- The reaper finds no lapsed lease of a worker that is still on its job: a lease
that stops being renewed means that the worker stopped. -/
def LapsedStopped (s : QueueState) : QueueAction → Prop
  | .reapStuckJobs _ => ∀ w item r, s.current w = some item → s.job item.jobId = some r →
      lapsed s.now r = false
  | _ => True

def Working (s : QueueState) : Prop :=
  ∀ w item, s.current w = some item → s.Holds w item.jobId

/-- A worker's job after a step is the one it was on, unless the step took it off, or
the one it has just claimed. -/
theorem step_current {s t : QueueState} {a : QueueAction} {w : WorkerId} {item : JobItem}
    (h : s.step a = some t) (hc : t.current w = some item) :
    (s.current w = some item ∧ ¬ a.leaves w) ∨
    ∃ (w' : BaseWorker) (row : Job), a = .pickJob w' row.jobId ∧ w'.workerId = w ∧
      s.current w = none ∧ s.job row.jobId = some row ∧ item = w'.item s.now row := by
  have hfin : ∀ {w' : BaseWorker} {write : JobItem → Jobs → Jobs}, s.finish w' write = some t →
      s.current w = some item ∧ w'.workerId ≠ w := by
    intro w' write hf
    obtain ⟨x, hx, rfl⟩ := Option.map_eq_some_iff.mp hf
    by_cases hw : w = w'.workerId
    · subst hw
      simp at hc
    · exact ⟨by simpa [Function.update_of_ne hw] using hc, Ne.symm hw⟩
  cases a with
  | tick seconds | reapStuckJobs w' =>
    simp only [step, Option.some.injEq] at h
    subst h
    exact .inl ⟨hc, id⟩
  | enqueue k d stage | renewOnce w' x =>
    simp only [step] at h
    split at h
    · simp only [Option.some.injEq] at h
      subst h
      exact .inl ⟨hc, id⟩
    · cases h
  | pickJob w' k =>
    simp only [step] at h
    split at h
    · rename_i hfree
      obtain ⟨⟨jobs, picked⟩, hp, rfl⟩ := Option.map_eq_some_iff.mp h
      obtain ⟨row, hrow, -, rfl, rfl⟩ := pickJob_cases hp
      by_cases hw : w = w'.workerId
      · subst hw
        obtain rfl : w'.item s.now row = item := by simpa using hc
        have hid : row.jobId = k := Table.key_of_lookup hrow
        refine .inr ⟨w', row, by rw [hid], rfl, Option.isNone_iff_eq_none.mp hfree, ?_, rfl⟩
        rw [hid]
        exact hrow
      · exact .inl ⟨by simpa [Function.update_of_ne hw] using hc, id⟩
    · cases h
  | markJobCompleted w' | markJobFailed w' m | handleJobRetryOrFail w' m =>
    exact .inl (hfin h)
  | crash w' =>
    simp only [step, Option.some.injEq] at h
    subst h
    by_cases hw : w = w'.workerId
    · subst hw
      simp at hc
    · exact .inl ⟨by simpa [Function.update_of_ne hw] using hc, Ne.symm hw⟩

theorem current_stays {s t : QueueState} {a : QueueAction} {w : WorkerId} {item : JobItem}
    (h : s.step a = some t) (hc : s.current w = some item) (hl : ¬ a.leaves w) :
    t.current w = some item := by
  have hfin : ∀ {w' : BaseWorker} {write : JobItem → Jobs → Jobs}, s.finish w' write = some t →
      w'.workerId ≠ w → t.current w = some item := by
    intro w' write hf hw
    obtain ⟨x, hx, rfl⟩ := Option.map_eq_some_iff.mp hf
    simpa [Function.update_of_ne (Ne.symm hw)] using hc
  cases a with
  | tick seconds | reapStuckJobs w' =>
    simp only [step, Option.some.injEq] at h
    exact h ▸ hc
  | enqueue k d stage | renewOnce w' x =>
    simp only [step] at h
    split at h
    · simp only [Option.some.injEq] at h
      exact h ▸ hc
    · cases h
  | pickJob w' k =>
    simp only [step] at h
    split at h
    · rename_i hfree
      obtain ⟨⟨jobs, picked⟩, -, rfl⟩ := Option.map_eq_some_iff.mp h
      by_cases hw : w = w'.workerId
      · subst hw
        rw [Option.isNone_iff_eq_none.mp hfree] at hc
        cases hc
      · simpa [Function.update_of_ne hw] using hc
    · cases h
  | markJobCompleted w' | markJobFailed w' m | handleJobRetryOrFail w' m => exact hfin h hl
  | crash w' =>
    simp only [step, Option.some.injEq] at h
    subst h
    simpa [Function.update_of_ne (Ne.symm hl)] using hc

/-- A worker holds the job it has claimed. -/
theorem picked_holds {s t : QueueState} {w : BaseWorker} {row : Job}
    (h : s.step (.pickJob w row.jobId) = some t) (hrow : s.job row.jobId = some row) :
    t.Holds w.workerId row.jobId := by
  simp only [step] at h
  split at h
  · obtain ⟨⟨jobs, picked⟩, hp, rfl⟩ := Option.map_eq_some_iff.mp h
    obtain ⟨-, -, -, -, rfl⟩ := pickJob_cases hp
    refine ⟨_, job_of_update (s := s) (f := w.claim s.now) rfl (fun _ => rfl) hrow, ?_⟩
    simp [claim]
  · cases h

theorem working_of_step {s t : QueueState} {a : QueueAction} (hs : Working s)
    (hok : LapsedStopped s a) (h : s.step a = some t) : Working t := by
  intro w item hc
  rcases step_current h hc with ⟨hcs, hno⟩ | ⟨w', row, rfl, rfl, -, hrow, rfl⟩
  · obtain ⟨r, hj, hrun, hw⟩ := hs w item hcs
    obtain ⟨r', hr', hstep⟩ := step_row h hj
    -- the writes that end a job come from its one holder, which this step leaves on it
    have own : ∀ {w' : BaseWorker} {x : JobItem}, s.current w'.workerId = some x →
        r.jobId = x.jobId → w'.workerId = w := by
      intro w' x hx hk
      have hh := hs _ _ hx
      rw [← hk, job_id hj] at hh
      exact Option.some.inj ((hh.of_row hj).2.symm.trans hw)
    cases hstep with
    | kept => exact ⟨r, hr', hrun, hw⟩
    | claimed _ _ hp => rw [hrun] at hp; cases hp
    | renewed => exact ⟨_, hr', hrun, hw⟩
    | completed w' x _ hx hk | failed w' x _ _ hx hk | retried w' x _ _ hx hk
    | exhausted w' x _ _ _ hx hk => exact absurd (own hx hk) hno
    | expired w' _ hl | reclaimed w' _ hl =>
      rw [hok w item r hcs hj] at hl
      cases hl
  · exact picked_holds h hrow

/-- While leases lapse only under workers that have stopped, every write that ends
a job comes from its holder, so the queue is fenced. -/
theorem runs_endsHeld {s t : QueueState} {as : List QueueAction} (hs : Working s)
    (h : Runs step LapsedStopped s as t) : Runs step EndsHeld s as t := by
  induction as generalizing s with
  | nil => exact h
  | cons a as ih =>
    obtain ⟨ha, u, hu, hr⟩ := h
    refine ⟨?_, u, hu, ih (working_of_step hs ha hu) hr⟩
    cases a with
    | markJobCompleted w | markJobFailed w m | handleJobRetryOrFail w m =>
      exact fun item hi => hs _ item hi
    | _ => trivial

def scanWorker (id : WorkerId) : BaseWorker :=
  { stage := .scan, workerId := id, leaseSeconds := 60, maxRetries := 3,
    backoffBaseSeconds := 2, backoffMaxSeconds := 300 }

def oneJob : QueueState :=
  { now := 0, jobs := [newJob 0 0 .scan 0], current := fun _ => none, renewers := fun _ => [] }

def endedJob : QueueState :=
  finalState step oneJob [.pickJob (scanWorker 0) 0, .markJobCompleted (scanWorker 0)]

/-- A job that its worker has ended stays ended while the reaper comes by. -/
theorem ended_job_stays :
    ∃ r, QueueState.job (finalState step endedJob [.tick 61, .reapStuckJobs (scanWorker 1)]) 0 =
      some r ∧ r.status = .completed := by
  let picked : QueueState := finalState step oneJob [.pickJob (scanWorker 0) 0]
  have hheld : EndsHeld picked (.markJobCompleted (scanWorker 0)) := by
    intro item hitem
    obtain rfl := Option.some.inj hitem
    exact ⟨_, rfl, rfl, rfl⟩
  have hpick : Runs step EndsHeld oneJob [.pickJob (scanWorker 0) 0] picked :=
    Runs.single trivial rfl
  have hend : Runs step EndsHeld picked [.markJobCompleted (scanWorker 0)] endedJob :=
    Runs.single hheld rfl
  have htick : Runs step EndsHeld endedJob [.tick 61] (finalState step endedJob [.tick 61]) :=
    Runs.single trivial rfl
  have hreap : Runs step EndsHeld (finalState step endedJob [.tick 61])
      [.reapStuckJobs (scanWorker 1)]
      (finalState step endedJob [.tick 61, .reapStuckJobs (scanWorker 1)]) :=
    Runs.single trivial rfl
  exact (leaseFencing_of_endsHeld fun _ _ h => h).settled (j := 0) ⟨fun _ => rfl, fun _ => rfl⟩
    (hpick.append hend) rfl (.inl rfl) (htick.append hreap)

/-- Worker 0 stalls past its lease, the reaper takes the job back, worker 1
claims it. -/
def stalledRun : List QueueAction :=
  [.pickJob (scanWorker 0) 0, .tick 61, .reapStuckJobs (scanWorker 1), .tick 5,
    .pickJob (scanWorker 1) 0]

def stalled : QueueState := finalState step oneJob stalledRun

/-- When worker 0 wakes and finishes, it completes the job worker 1 is running. -/
theorem stalled_worker_completes_anothers_job : ¬ LeaseFencing (fun _ _ => True) := by
  intro hf
  have hrun : Runs step (fun _ _ => True) oneJob stalledRun stalled :=
    runs_of_exec_free (by decide)
  have hrow : (stalled.job 0).map (fun r => (r.status, r.workerId)) =
      some (.running, some 1) := by decide
  obtain ⟨r, hr, he⟩ := Option.map_eq_some_iff.mp hrow
  obtain ⟨hst, hw⟩ := Prod.mk.inj he
  let t : QueueState := (stalled.step (.markJobCompleted (scanWorker 0))).getD stalled
  have ht : (t.job 0).map Job.status = some .completed := by decide
  obtain ⟨r', hr', hst'⟩ := Option.map_eq_some_iff.mp ht
  have hleft := hf.leaves (t := t) (a := .markJobCompleted (scanWorker 0))
    ⟨fun _ => rfl, fun _ => rfl⟩ hrun trivial rfl hr hst hr' (by simp [hst'])
  rcases hleft with ⟨w, hw'⟩ | ⟨w, hw', hrw⟩
  · cases hw'
  · have h0 : w = 0 := (Option.some.inj hw').symm
    simp [hw, h0] at hrw

end KnowledgeBase
