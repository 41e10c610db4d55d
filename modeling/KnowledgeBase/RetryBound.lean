import KnowledgeBase.LeaseFencing

/-! How often a job can be retried and claimed. The reaper compares the row's own
counter with the bound; a worker's retry compares the counter its item was
claimed with and raises the row's. -/

namespace KnowledgeBase

open BaseWorker

/-- The worker that sends the statement, if a worker does. -/
def QueueAction.sender : QueueAction → Option BaseWorker
  | .pickJob w _ | .renewOnce w _ | .markJobCompleted w | .markJobFailed w _
  | .handleJobRetryOrFail w _ | .reapStuckJobs w | .crash w => some w
  | .tick _ | .enqueue _ _ _ => none

/-- Every worker is configured with the same `max_retries`. -/
def Configured (m : Nat) (as : List QueueAction) : Prop :=
  ∀ a ∈ as, ∀ w, a.sender = some w → w.maxRetries = m

def QueueAction.takes (j : JobId) : QueueAction → Bool
  | .pickJob _ k => k = j
  | _ => false

def claims (j : JobId) (as : List QueueAction) : Nat := as.countP (QueueAction.takes j)

namespace QueueState

open Transition

/-- The job, if it is there already, has not been retried yet. -/
def Unretried (s : QueueState) (j : JobId) : Prop := ∀ r, s.job j = some r → r.retryCount = 0

/-- A worker that sends the job back for another try finds the row's counter below
the bound, as it found its own. -/
def RetryFits (j : JobId) (s : QueueState) : QueueAction → Prop
  | .handleJobRetryOrFail w _ => ∀ item r, s.current w.workerId = some item → item.jobId = j →
      item.retryCount < w.maxRetries → s.job j = some r → r.retryCount < w.maxRetries
  | _ => True

/-- A claim either is the row's present one or was given back for a retry. -/
def Counted (m : Nat) (j : JobId) (s : QueueState) (n : Nat) : Prop :=
  (s.job j = none → n = 0) ∧
  ∀ r, s.job j = some r → r.retryCount ≤ m ∧
    n ≤ r.retryCount + if r.status = .pending then 0 else 1

theorem pick_takes {s t : QueueState} {w : BaseWorker} {j : JobId}
    (h : s.step (.pickJob w j) = some t) :
    ∃ r, s.job j = some r ∧ r.status = .pending ∧ t.job j = some (w.claim s.now r) := by
  simp only [step] at h
  split at h
  · obtain ⟨⟨jobs, item⟩, hp, rfl⟩ := Option.map_eq_some_iff.mp h
    obtain ⟨r, hr, hpend, -, rfl⟩ := pickJob_cases hp
    have hid : r.jobId = j := Table.key_of_lookup hr
    have ht := job_of_update (s := s) (f := w.claim s.now)
      (t := ⟨s.now, Table.update (fun r => r.jobId = j) (w.claim s.now) s.jobs,
        Function.update s.current w.workerId (some item),
        Function.update s.renewers w.workerId (item :: s.renewers w.workerId)⟩)
      rfl (fun _ => rfl) hr
    exact ⟨r, hr, hpend, by simpa [hid] using ht⟩
  · cases h

theorem counted_of_step {m n : Nat} {j : JobId} {s t : QueueState} {a : QueueAction}
    (hn : Counted m j s n) (hm : ∀ w, a.sender = some w → w.maxRetries = m)
    (hok : RetryFits j s a) (h : s.step a = some t) :
    Counted m j t (n + if a.takes j then 1 else 0) := by
  by_cases ha : a.takes j = true
  · cases a with
    | pickJob w k =>
      simp only [QueueAction.takes, decide_eq_true_eq] at ha
      subst ha
      obtain ⟨r, hr, hpend, ht⟩ := pick_takes h
      have hc := hn.2 r hr
      simp only [hpend, if_true] at hc
      refine ⟨by simp [ht], fun r' hr' => ?_⟩
      obtain rfl := Option.some.inj (ht.symm.trans hr')
      simpa [QueueAction.takes, claim] using hc
    | _ => simp [QueueAction.takes] at ha
  · simp only [ha, Bool.false_eq_true, if_false, Nat.add_zero]
    cases hj : s.job j with
    | none =>
      have hz := hn.1 hj
      rcases step_absent h hj with ht | ⟨d, stage, -, ht⟩
      · exact ⟨fun _ => hz, by simp [ht]⟩
      · refine ⟨by simp [ht], fun r' hr' => ?_⟩
        obtain rfl := Option.some.inj (ht.symm.trans hr')
        simp [newJob, hz]
    | some r =>
      obtain ⟨r', hr', hstep⟩ := step_row h hj
      have hc := hn.2 r hj
      refine ⟨by simp [hr'], fun u hu => ?_⟩
      obtain rfl := Option.some.inj (hr'.symm.trans hu)
      have hle : n ≤ r.retryCount + 1 := by
        have := hc.2
        split at this <;> omega
      have hid := job_id hj
      cases hstep with
      | kept => exact hc
      | claimed w => simp [QueueAction.takes, hid] at ha
      | renewed => exact hc
      | completed => simpa [complete] using ⟨hc.1, hle⟩
      | failed | exhausted => simpa [fail] using ⟨hc.1, hle⟩
      | expired => simpa [expire] using ⟨hc.1, hle⟩
      | retried w item message _ hcur hk hlt =>
        have hw := hm w rfl
        have hfit := hok item r hcur (hk.symm.trans hid) hlt hj
        simp only [retry, if_true]
        omega
      | reclaimed w _ _ hlt =>
        have hw := hm w rfl
        simp only [reclaim, if_true]
        omega

/-- What one step keeps of the count, a run keeps. -/
theorem counted_of_run {m : Nat} {j : JobId} {as : List QueueAction} :
    ∀ {n : Nat} {s t : QueueState}, Counted m j s n → Configured m as →
      Runs step (RetryFits j) s as t → Counted m j t (n + claims j as) := by
  induction as with
  | nil =>
    intro n s t hn _ h
    exact h ▸ hn
  | cons a as ih =>
    intro n s t hn hm ⟨hok, u, hu, hr⟩
    have hu' := counted_of_step hn (hm a (by simp)) hok hu
    have ht := ih hu' (fun b hb => hm b (List.mem_cons_of_mem a hb)) hr
    rw [claims, List.countP_cons, Nat.add_comm (as.countP _), ← Nat.add_assoc]
    exact ht

/-- A retry that finds the counter at the bound puts it over the bound. -/
theorem retry_over {m : Nat} {j : JobId} {s t : QueueState} {w : BaseWorker} {message : String}
    (hm : w.maxRetries = m) (h : s.step (.handleJobRetryOrFail w message) = some t)
    (hno : ¬ RetryFits j s (.handleJobRetryOrFail w message)) :
    ∃ r, t.job j = some r ∧ m < r.retryCount := by
  simp only [RetryFits, not_forall, exists_prop] at hno
  obtain ⟨item, r, hcur, hk, hlt, hj, hge⟩ := hno
  obtain ⟨item', hcur', ht⟩ := finish_cases h
  obtain rfl := Option.some.inj (hcur.symm.trans hcur')
  simp only [BaseWorker.handleJobRetryOrFail, hlt, if_true] at ht
  have hid : r.jobId = item.jobId := (job_id hj).trans hk.symm
  have ht' := job_of_update ht (fun _ => rfl) hj
  refine ⟨_, ht', ?_⟩
  simp only [hid, decide_true, if_true, retry]
  omega

end QueueState

open QueueState Transition

/-- In every state the run comes through, the job has been retried at most `m`
times and claimed at most once more. -/
def RetriesBounded (m : Nat) (s : QueueState) (as : List QueueAction) (j : JobId) : Prop :=
  ∀ pre t, pre <+: as → Runs step (fun _ _ => True) s pre t →
    (∀ r, t.job j = some r → r.retryCount ≤ m) ∧ claims j pre ≤ m + 1

theorem fits_of_bounded {m : Nat} {j : JobId} {as : List QueueAction} :
    ∀ {s t : QueueState}, Configured m as → Runs step (fun _ _ => True) s as t →
      (∀ pre u, pre <+: as → Runs step (fun _ _ => True) s pre u →
        ∀ r, u.job j = some r → r.retryCount ≤ m) →
      Runs step (RetryFits j) s as t := by
  induction as with
  | nil =>
    intro s t _ h _
    exact h
  | cons a as ih =>
    intro s t hm ⟨_, u, hu, hr⟩ hb
    have hok : RetryFits j s a := by
      by_contra hno
      cases a with
      | handleJobRetryOrFail w message =>
        obtain ⟨r, hj, hlt⟩ := retry_over (hm (.handleJobRetryOrFail w message) (by simp) w rfl) hu hno
        have hle := hb [.handleJobRetryOrFail w message] u (by simp) (Runs.single trivial hu) r hj
        omega
      | _ => exact hno trivial
    have hm' : Configured m as := fun b hmem => hm b (List.mem_cons_of_mem a hmem)
    refine ⟨hok, u, hu, ih hm' hr ?_⟩
    intro pre v hpre hv
    exact hb (a :: pre) v (by simpa using hpre) ⟨trivial, u, hu, hv⟩

/-- The bound holds all along a run exactly when no retry on a stale snapshot finds
the counter used up. -/
theorem retries_bounded_iff {m : Nat} {s t : QueueState} {as : List QueueAction} {j : JobId}
    (hj : s.Unretried j) (hm : Configured m as) (h : Runs step (fun _ _ => True) s as t) :
    RetriesBounded m s as j ↔ Runs step (RetryFits j) s as t := by
  constructor
  · intro hb
    exact fits_of_bounded hm h (fun pre u hpre hu => (hb pre u hpre hu).1)
  · intro hfit pre u hpre hu
    have hstart : Counted m j s 0 := ⟨fun _ => rfl, fun r hr => ⟨by simp [hj r hr], by simp⟩⟩
    obtain ⟨post, rfl⟩ := hpre
    obtain ⟨v, hv, -⟩ := hfit.split
    obtain rfl := hv.det hu
    have hpre : Configured m pre := fun a ha => hm a (List.mem_append_left post ha)
    have hc := counted_of_run hstart hpre hv
    refine ⟨fun r hr => (hc.2 r hr).1, ?_⟩
    cases hrow : v.job j with
    | none =>
      have hz := hc.1 hrow
      omega
    | some r =>
      have hr := hc.2 r hrow
      split at hr <;> omega

theorem oneJob_unretried : oneJob.Unretried 0 := by
  intro r hr
  have hrow : oneJob.job 0 = some (newJob 0 0 .scan 0) := by decide
  exact Option.some.inj (hrow.symm.trans hr) ▸ rfl

/-- A job whose lease lapsed once is claimed twice. -/
theorem lapsed_job_bounded : RetriesBounded 3 oneJob stalledRun 0 :=
  (retries_bounded_iff (t := stalled)
    oneJob_unretried
    (by simp [Configured, stalledRun, QueueAction.sender, scanWorker])
    (runs_of_exec_free (by decide))).mpr
  (runs_of_exec (fun _ a => !(a matches .handleJobRetryOrFail _ _))
    (fun s a ha => by cases a <;> simp_all [RetryFits]) (by decide))

/-- Worker 0 stalls on the first claim while three leases of the job lapse, then
reports a transient failure: its snapshot still says that no retry was made. -/
def staleRetryRun : List QueueAction :=
  [.pickJob (scanWorker 0) 0, .tick 61, .reapStuckJobs (scanWorker 1), .tick 5,
    .pickJob (scanWorker 1) 0, .crash (scanWorker 1), .tick 61, .reapStuckJobs (scanWorker 1),
    .tick 5, .pickJob (scanWorker 1) 0, .crash (scanWorker 1), .tick 61,
    .reapStuckJobs (scanWorker 1), .tick 5, .pickJob (scanWorker 1) 0, .crash (scanWorker 1),
    .handleJobRetryOrFail (scanWorker 0) "timed out", .tick 2, .pickJob (scanWorker 1) 0]

theorem stale_retry_over_bound :
    ¬ ∀ (m : Nat) (s t : QueueState) (as : List QueueAction) (j : JobId), s.Idle →
      s.Unretried j → Configured m as → Runs step (fun _ _ => True) s as t →
      RetriesBounded m s as j := by
  intro hall
  have hb := hall 3 oneJob (finalState step oneJob staleRetryRun) staleRetryRun 0
    ⟨fun _ => rfl, fun _ => rfl⟩
    oneJob_unretried
    (by simp [Configured, staleRetryRun, QueueAction.sender, scanWorker])
    (runs_of_exec_free (by decide +kernel))
  have hclaims := (hb staleRetryRun _ (List.prefix_refl _)
    (runs_of_exec_free (by decide +kernel))).2
  revert hclaims
  decide

end KnowledgeBase
