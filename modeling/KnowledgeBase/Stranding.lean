import KnowledgeBase.Rerun
import KnowledgeBase.HandOver

/-! No document is left behind between two stages, as long as no program dies in the
time between its commit of a hand-over status and its insert of the next job. -/

namespace KnowledgeBase

open Program RunningState

/-- FAILED, after as many retries as some worker's limit allows. -/
def Exhausted (fleet : Fleet) (r : Job) : Prop :=
  r.status = .failed ∧ ∃ i, (fleet.worker i).maxRetries ≤ r.retryCount

/-- A job of the stage the document waits for, which every worker on it answers for. -/
structure Waiting (sv : Services) (fleet : Fleet) (s : RunningState) (d : DocumentId)
    (h : DocumentStatus) (stage : JobStage) (j : JobId) (r : Job) : Prop where
  row : s.world.jobs.job j = some r
  document : r.documentId = d
  stage : r.stage = stage
  status : r.status = .pending ∨ r.status = .running ∨ Exhausted fleet r
  programs : ∀ i item, s.current i = some item → item.jobId = j →
    MovesOn sv d h (fun o => ∃ m, o = .transient m) (s.rest i)

/-- The program is bound to queue the job of the stage. -/
def Owes (sv : Services) (d : DocumentId) (stage : JobStage) {α : Type} (p : Stage α) : Prop :=
  ∃ x : Conduct, x.owed = some stage ∧ Conducts sv d x p

/-- Somebody still has to queue the job of the stage, or it is there. -/
inductive Provided (sv : Services) (fleet : Fleet) (s : RunningState) (d : DocumentId)
    (h : DocumentStatus) (stage : JobStage) : Prop
  | upload (p : Stage UploadResponse) (hp : s.uploads d = some p)
      (hh : Owes sv d stage p)
  | worker (i : WorkerId) (item : JobItem) (hi : s.current i = some item)
      (hd : item.documentId = d) (hh : Owes sv d stage (s.rest i))
  | job (j : JobId) (r : Job) (hw : Waiting sv fleet s d h stage j r)

structure HandOverInv (sv : Services) (fleet : Fleet) (s : RunningState) : Prop where
  ids : ∀ j r, s.world.jobs.job j = some r → j < s.world.nextId
  items : ∀ i item, s.current i = some item → ∃ r, s.world.jobs.job item.jobId = some r ∧
    r.documentId = item.documentId ∧ r.stage = item.stage ∧ item.retryCount ≤ r.retryCount
  workers : ∀ i item, s.current i = some item →
    ∃ x, Conducts sv item.documentId x (s.rest i)
  uploads : ∀ d p, s.uploads d = some p → ∃ x, Conducts sv d x p
  covered : ∀ d r stage, s.world.doc d = some r → nextStage r.status = some stage →
    Provided sv fleet s d r.status stage

section Operations

variable {sv : Services} {op : Op} {w w' : World} {r : Except Exn op.Resp} {d : DocumentId}
  {x : Conduct}

/-- Only a write of the row and a job queued change what is owed. -/
theorem owed_next (hr : op.row = none) (he : ∀ id stage, op ≠ .enqueue id stage) (y : Conduct) :
    ((conduct sv d).next y op r).owed = y.owed := by
  cases op
  case create | updateDocument | setClassification | softDelete | restore => cases hr
  case enqueue id stage => exact absurd rfl (he id stage)
  case getById id =>
    rcases r with e | row
    · rfl
    · cases row with
      | none => rfl
      | some row =>
        show (if id = d then _ else _ : Conduct).owed = _
        split <;> rfl
  case loadChunks id =>
    cases r with
    | error e => rfl
    | ok chunks =>
      show (if id = d then _ else _ : Conduct).owed = _
      split <;> rfl
  case writeEmbeddings vs =>
    cases r with
    | error e => rfl
    | ok _ =>
      show (if _ then _ else _ : Conduct).owed = _
      split <;> rfl
  all_goals rfl

/-- Where the status a row has after an operation comes from: the program wrote it, and
owes the next stage; or it was there before, and what is owed stays so until queued. -/
theorem op_covers (hop : (conduct sv d).allowed x op) (h : Acts sv op w r w')
    {k : DocumentId} {row' : Document} (hk : w'.doc k = some row') :
    (k = d ∧ ∀ y, ((conduct sv d).next y op r).owed = nextStage row'.status) ∨
      (∃ row, w.doc k = some row ∧ row.status = row'.status) ∧
        ∀ y stage, y.owed = some stage → ((conduct sv d).next y op r).owed = some stage ∨
          k ≠ d ∨ op = .enqueue d stage := by
  by_cases hr : op.row = none
  · have hdoc : w.doc k = some row' := by
      rw [← hk, World.doc, World.doc, documents_of_acts h hr]
    refine .inr ⟨⟨row', hdoc, rfl⟩, fun y stage hy => ?_⟩
    by_cases he : ∃ id st, op = .enqueue id st
    · obtain ⟨id, st, rfl⟩ := he
      obtain ⟨rfl, -⟩ := acts_enqueue.mp h
      show (if id = d ∧ y.owed = some st then _ else y : Conduct).owed = some stage ∨ _
      split
      · rename_i hc
        obtain ⟨rfl, hst⟩ := hc
        obtain rfl := Option.some.inj (hst.symm.trans hy)
        exact .inr (.inr rfl)
      · exact .inl hy
    · exact .inl ((owed_next hr (fun id st hid => he ⟨id, st, hid⟩) y).trans hy)
  · cases op
    case create doc =>
      have hid : doc.id = d := hop.1
      rcases acts_create.mp h with ⟨-, rfl, rfl⟩ | ⟨t, ht, rfl, rfl⟩
      · exact .inr ⟨⟨row', hk, rfl⟩, fun _ _ hy => .inl hy⟩
      · by_cases hkd : k = doc.id
        · subst hkd
          have hrow : row' = doc.created := Documents.insert_get_eq ht hk
          exact .inl ⟨hid, fun _ => by rw [hrow]; rfl⟩
        · refine .inr ⟨⟨row', ?_, rfl⟩, fun _ _ _ => .inr (.inl (hid ▸ hkd))⟩
          have hk' : t.get k = some row' := hk
          rwa [Documents.insert_get ht, Document.created, if_neg (Ne.symm hkd),
            Option.or_none] at hk'
    case updateDocument doc =>
      obtain ⟨⟨row, -, hv⟩, -⟩ := hop
      rcases acts_updateDocument.mp h with ⟨-, rfl, rfl⟩ | ⟨t, ht, rfl, rfl⟩
      · exact .inr ⟨⟨row', hk, rfl⟩, fun _ _ hy => .inl hy⟩
      · by_cases hkd : k = doc.id
        · subst hkd
          have hrow := (Documents.updateDocument_get_eq ht hk).1
          exact .inl ⟨hv.id, fun _ => by rw [hrow]; rfl⟩
        · refine .inr ⟨⟨row', ?_, rfl⟩, fun _ _ _ => .inr (.inl (hv.id ▸ hkd))⟩
          exact (Documents.updateDocument_get_other ht hkd).symm.trans hk
    case setClassification id tier =>
      obtain ⟨rfl, rfl⟩ := acts_setClassification.mp h
      obtain ⟨q, hq, hs, -, -⟩ := setClassification_get hk
      exact .inr ⟨⟨q, hq, hs.symm⟩, fun _ _ hy => .inl hy⟩
    case softDelete => exact hop.elim
    case restore => exact hop.elim
    all_goals exact absurd rfl hr

/-- A program that has written another status is not what left the status as it is. -/
theorem movesOn_stays {h : DocumentStatus} (hact : Acts sv op w r w') {row' : Document}
    (hrow : w'.doc d = some row') (hs : row'.status = h) :
    (movesOn sv d h).next false op r = false := by
  cases op
  case updateDocument doc =>
    rcases acts_updateDocument.mp hact with ⟨-, rfl, -⟩ | ⟨t, ht, rfl, rfl⟩
    · rfl
    · show (false || (doc.id = d && doc.status ≠ h)) = false
      by_cases hid : doc.id = d
      · subst hid
        have hst := (Documents.updateDocument_get_eq ht hrow).1
        simp [← hst, hs]
      · simp [hid]
  all_goals rfl

/-- Rows of the jobs table stay what they are; a new one has a new id. -/
theorem job_of_acts (hact : Acts sv op w r w') :
    (∀ j job, w.jobs.job j = some job → w'.jobs.job j = some job) ∧ w.nextId ≤ w'.nextId ∧
      ∀ j job, w'.jobs.job j = some job → w.jobs.job j = some job ∨ w.nextId = j ∧ j < w'.nextId := by
  by_cases he : ∃ id stage, op = .enqueue id stage
  · obtain ⟨id, stage, rfl⟩ := he
    obtain ⟨-, rfl⟩ := acts_enqueue.mp hact
    have hjob : ∀ j, (w.enqueue id stage).jobs.job j = (w.jobs.job j).or
        (if w.nextId = j then some (newJob w.nextId id stage w.now) else none) := by
      intro j
      rw [World.enqueue, Jobs.job, Table.lookup_append, Table.lookup_cons, Table.lookup_nil]
      rfl
    refine ⟨fun j job hj => by rw [hjob, hj, Option.some_or], Nat.le_succ _, fun j job hj => ?_⟩
    rw [hjob] at hj
    cases hw : w.jobs.job j with
    | some job' =>
      rw [hw, Option.some_or] at hj
      exact .inl hj
    | none =>
      rw [hw, Option.none_or] at hj
      split at hj
      · rename_i hid
        exact .inr ⟨hid, hid ▸ Nat.lt_succ_self _⟩
      · cases hj
  · obtain ⟨c, hc⟩ := hact
    have hno : ∀ id stage, op ≠ .enqueue id stage := fun id stage h => he ⟨id, stage, h⟩
    have hsame : (effect sv c op w).2.jobs = w.jobs ∧ w.nextId ≤ (effect sv c op w).2.nextId :=
      effect_jobs hno
    rw [hc] at hsame
    rw [hsame.1]
    exact ⟨fun _ _ h => h, hsame.2, fun _ _ h => .inl h⟩

end Operations

section Steps

variable {sv : Services} {fleet : Fleet} {s t : RunningState}

/-- One operation of the program `p` of a document, and the rest `q` it leaves. -/
structure Operation (sv : Services) (d : DocumentId) {α : Type} (p q : Stage α)
    (op : Op) (r : Except Exn op.Resp) (w w' : World) : Prop where
  acts : Acts sv op w r w'
  conducts : ∀ x, Conducts sv d x p →
    (conduct sv d).allowed x op ∧ Conducts sv d ((conduct sv d).next x op r) q
  moves : ∀ k h retried row, MovesOn sv k h retried p → w.doc k = some row → row.status = h →
    (movesOn sv k h).next false op r = false → MovesOn sv k h retried q

theorem operation_of_step {α : Type} {p q : Stage α} {w w' : World} {luck : Luck}
    (h : Program.step (effect sv luck) p w = some (q, w')) (d : DocumentId) :
    ∃ op r, Operation sv d p q op r w w' := by
  obtain ⟨op, next, rfl, rfl, rfl⟩ := Program.step_cases h
  have hact : Acts sv op w (effect sv luck op w).1 (effect sv luck op w).2 := ⟨luck, rfl⟩
  refine ⟨op, (effect sv luck op w).1, hact, fun x hx => ⟨hx.1, hx.2 _ ⟨_, _, hact⟩⟩, ?_⟩
  intro k h retried row hm hrow hs hstay
  have hnext := hm.2 (effect sv luck op w).1 ⟨w, _, row, hact, hrow, hs⟩
  rw [hstay] at hnext
  exact hnext

/-- What the step does to the program that runs, and to no other. -/
inductive Acted (sv : Services) (s t : RunningState) (d : DocumentId) (op : Op)
    (r : Except Exn op.Resp) : Prop
  | upload (p q : Stage UploadResponse) (ho : Operation sv d p q op r s.world t.world)
      (hp : s.uploads d = some p) (ht : t.uploads = Function.update s.uploads d (some q))
      (hc : t.current = s.current) (hr : t.rest = s.rest)
  | worker (i : WorkerId) (item : JobItem) (q : Stage JobOutcome)
      (ho : Operation sv d (s.rest i) q op r s.world t.world) (hi : s.current i = some item)
      (hd : item.documentId = d) (ht : t.rest = Function.update s.rest i q)
      (hc : t.current = s.current) (hu : t.uploads = s.uploads)

namespace Acted

variable {d : DocumentId} {op : Op} {r : Except Exn op.Resp}

theorem acts (h : Acted sv s t d op r) : Acts sv op s.world r t.world := by
  cases h with
  | upload p q ho => exact ho.acts
  | worker i item q ho => exact ho.acts

theorem current (h : Acted sv s t d op r) : t.current = s.current := by
  cases h with
  | upload p q ho hp ht hc => exact hc
  | worker i item q ho hi hd ht hc => exact hc

/-- Each upload of the state after is one from before, or the one that ran. -/
theorem upload_cases (h : Acted sv s t d op r) {k : DocumentId} {p : Stage UploadResponse}
    (hp : s.uploads k = some p) :
    t.uploads k = some p ∨ k = d ∧ ∃ q, t.uploads k = some q ∧
      Operation sv d p q op r s.world t.world := by
  cases h with
  | upload p' q ho hp' ht =>
    by_cases hk : k = d
    · subst hk
      obtain rfl := Option.some.inj (hp'.symm.trans hp)
      exact .inr ⟨rfl, q, by rw [ht, Function.update_self], ho⟩
    · exact .inl (by rw [ht, Function.update_of_ne hk, hp])
  | worker i item q ho hi hd ht hc hu => exact .inl (by rw [hu, hp])

theorem rest_cases (h : Acted sv s t d op r) {i : WorkerId} {item : JobItem}
    (hi : s.current i = some item) :
    t.rest i = s.rest i ∨ item.documentId = d ∧
      Operation sv d (s.rest i) (t.rest i) op r s.world t.world := by
  cases h with
  | upload p q ho hp ht hc hr => exact .inl (by rw [hr])
  | worker i' item' q ho hi' hd ht =>
    by_cases hk : i = i'
    · subst hk
      obtain rfl := Option.some.inj (hi'.symm.trans hi)
      exact .inr ⟨hd, by rw [ht, Function.update_self]; exact ho⟩
    · exact .inl (by rw [ht, Function.update_of_ne hk])

/-- The program that ran owes what its operation leaves to be owed. -/
theorem provided (h : Acted sv s t d op r) (hs : HandOverInv sv fleet s) :
    ∃ x, (conduct sv d).allowed x op ∧ ∀ hst stage,
      ((conduct sv d).next x op r).owed = some stage → Provided sv fleet t d hst stage := by
  cases h with
  | upload p q ho hp ht =>
    obtain ⟨x, hx⟩ := hs.uploads d p hp
    obtain ⟨hop, hq⟩ := ho.conducts x hx
    refine ⟨x, hop, fun hst stage hn => .upload q ?_ ⟨_, hn, hq⟩⟩
    rw [ht, Function.update_self]
  | worker i item q ho hi hd ht hc =>
    obtain ⟨x, hx⟩ := hs.workers i item hi
    rw [hd] at hx
    obtain ⟨hop, hq⟩ := ho.conducts x hx
    refine ⟨x, hop, fun hst stage hn => .worker i item (by rw [hc]; exact hi) hd ⟨_, hn, ?_⟩⟩
    rw [ht, Function.update_self]
    exact hq

/-- What provided for a document before still does, if its status is as it was. -/
theorem still_provided (h : Acted sv s t d op r) (hs : HandOverInv sv fleet s)
    {k : DocumentId} {row row' : Document} {stage : JobStage} (hrow : s.world.doc k = some row)
    (hrow' : t.world.doc k = some row') (hst : row.status = row'.status)
    (hnext : ∀ y, y.owed = some stage → ((conduct sv d).next y op r).owed = some stage ∨
      k ≠ d ∨ op = .enqueue d stage)
    (hp : Provided sv fleet s k row'.status stage) : Provided sv fleet t k row'.status stage := by
  have hqueued : k = d → op = .enqueue d stage → Provided sv fleet t k row'.status stage := by
    rintro rfl rfl
    obtain ⟨-, ht⟩ := acts_enqueue.mp h.acts
    refine .job s.world.nextId (newJob s.world.nextId k stage s.world.now)
      ⟨?_, rfl, rfl, .inl rfl, ?_⟩
    · have hnone : s.world.jobs.job s.world.nextId = none := by
        cases hj : s.world.jobs.job s.world.nextId with
        | none => rfl
        | some job => exact absurd (hs.ids _ _ hj) (Nat.lt_irrefl _)
      have hl : Table.lookup Job.jobId s.world.jobs s.world.nextId = none := hnone
      rw [ht, World.enqueue, Jobs.job, Table.lookup_append, hl, Option.none_or,
        Table.lookup_cons]
      exact if_pos rfl
    · intro i item hi hid
      rw [h.current] at hi
      obtain ⟨job, hjob, -⟩ := hs.items i item hi
      rw [hid] at hjob
      exact absurd (hs.ids _ _ hjob) (Nat.lt_irrefl _)
  cases hp with
  | upload p hp hh =>
    rcases h.upload_cases hp with hp' | ⟨rfl, q, hq, ho⟩
    · exact .upload p hp' hh
    · obtain ⟨y, hy, hc⟩ := hh
      rcases hnext y hy with hn | hn | hn
      · exact .upload q hq ⟨_, hn, (ho.conducts y hc).2⟩
      · exact absurd rfl hn
      · exact hqueued rfl hn
  | worker i item hi hd hh =>
    have hi' : t.current i = some item := by rw [h.current]; exact hi
    rcases h.rest_cases hi with hr | ⟨hd', ho⟩
    · exact .worker i item hi' hd (hr.symm ▸ hh)
    · obtain rfl := hd.symm.trans hd'
      obtain ⟨y, hy, hc⟩ := hh
      rcases hnext y hy with hn | hn | hn
      · exact .worker i item hi' hd ⟨_, hn, (ho.conducts y hc).2⟩
      · exact absurd rfl hn
      · exact hqueued rfl hn
  | job j job hw =>
    refine .job j job ⟨(job_of_acts h.acts).1 j job hw.row, hw.document, hw.stage, hw.status, ?_⟩
    intro i item hi hid
    rw [h.current] at hi
    have hm := hw.programs i item hi hid
    rcases h.rest_cases hi with hr | ⟨-, ho⟩
    · exact hr.symm ▸ hm
    · exact ho.moves k _ _ row hm hrow hst (movesOn_stays h.acts hrow' rfl)

theorem inv (h : Acted sv s t d op r) (hs : HandOverInv sv fleet s) : HandOverInv sv fleet t where
  ids := by
    intro j job hj
    obtain ⟨-, hle, hnew⟩ := job_of_acts h.acts
    rcases hnew j job hj with hold | ⟨-, hlt⟩
    · exact Nat.lt_of_lt_of_le (hs.ids j job hold) hle
    · exact hlt
  items := by
    intro i item hi
    rw [h.current] at hi
    obtain ⟨job, hj, hrest⟩ := hs.items i item hi
    exact ⟨job, (job_of_acts h.acts).1 _ _ hj, hrest⟩
  workers := by
    intro i item hi
    rw [h.current] at hi
    obtain ⟨x, hx⟩ := hs.workers i item hi
    rcases h.rest_cases hi with hr | ⟨rfl, ho⟩
    · exact ⟨x, hr.symm ▸ hx⟩
    · exact ⟨_, (ho.conducts x hx).2⟩
  uploads := by
    intro k q hq
    cases hp : s.uploads k with
    | none =>
      cases h with
      | upload p q' ho hp' ht =>
        by_cases hk : k = d
        · rw [hk, hp'] at hp
          cases hp
        · rw [ht, Function.update_of_ne hk, hp] at hq
          cases hq
      | worker i item q' ho hi hd ht hc hu =>
        rw [hu, hp] at hq
        cases hq
    | some p =>
      obtain ⟨x, hx⟩ := hs.uploads k p hp
      rcases h.upload_cases hp with hp' | ⟨rfl, q', hq', ho⟩
      · obtain rfl := Option.some.inj (hp'.symm.trans hq)
        exact ⟨x, hx⟩
      · obtain rfl := Option.some.inj (hq'.symm.trans hq)
        exact ⟨_, (ho.conducts x hx).2⟩
  covered := by
    intro k row' stage hrow' hstage
    obtain ⟨x, hop, hprov⟩ := h.provided hs
    rcases op_covers hop h.acts hrow' with ⟨rfl, hx⟩ | ⟨⟨row, hrow, hst⟩, hnext⟩
    · exact hprov _ stage ((hx x).trans hstage)
    · have hp := hs.covered k row stage hrow (by rw [hst]; exact hstage)
      rw [hst] at hp
      exact h.still_provided hs hrow hrow' hst (fun y hy => hnext y stage hy) hp

end Acted

/-- The program for `d` has still to queue the job its document waits for. -/
def Owing (sv : Services) (w : World) (d : DocumentId) {α : Type} (p : Stage α) : Prop :=
  ∃ row stage, w.doc d = some row ∧ nextStage row.status = some stage ∧
    Owes sv d stage p

/-- The condition on a step: no program that goes away owes a job. -/
def LeavesNothingOwed (sv : Services) (s : RunningState) : RunAction → Prop
  | .endUpload id => ∀ p, s.uploads id = some p → ¬ Owing sv s.world id p
  | .crash i => ∀ item, s.current i = some item → ¬ Owing sv s.world item.documentId (s.rest i)
  | _ => True

theorem not_owes_ret {α : Type} {d : DocumentId} {stage : JobStage} {p : Stage α}
    (h : (∃ o, p = .ret o) ∨ ∃ e, p = .raise e) : ¬ Owes sv d stage p := by
  rintro ⟨x, hx, hc⟩
  have hnone : x.owed = none := by
    rcases h with ⟨o, rfl⟩ | ⟨e, rfl⟩ <;> exact hc.1
  rw [hnone] at hx
  cases hx

section Queue

variable {a : RunAction} {act : QueueAction} {q : QueueState}

theorem queue_job (hact : QueueCases fleet s a act) (h : s.queue.step act = some q) {j : JobId}
    {r' : Job} (hj : q.job j = some r') :
    ∃ r, s.world.jobs.job j = some r ∧ RowStep s.queue act r r' := by
  cases hr : s.queue.job j with
  | none =>
    rcases QueueState.step_absent h hr with hn | ⟨d, stage, rfl, -⟩
    · rw [hn] at hj
      cases hj
    · cases hact
  | some r =>
    obtain ⟨r'', hr'', hstep⟩ := QueueState.step_row h hr
    obtain rfl := Option.some.inj (hj.symm.trans hr'')
    exact ⟨r, hr, hstep⟩

/-- The job of a worker after a step of the queue, and the program it runs for it. -/
theorem queue_current (hact : QueueCases fleet s a act) (h : s.queue.step act = some q)
    {i : WorkerId} {item : JobItem} (hi : q.current i = some item) :
    (s.current i = some item ∧ s.started sv a q i = s.rest i) ∨
      ∃ (w : BaseWorker) (row : Job), s.world.jobs.job row.jobId = some row ∧
        item = w.item s.world.now row ∧
        s.started sv a q i = processJob sv row.stage row.documentId := by
  rcases step_current h hi with ⟨hc, -⟩ | ⟨w, row, rfl, rfl, -, hrow, rfl⟩
  · exact .inl ⟨hc, started_of_current hact h hc⟩
  · refine .inr ⟨w, row, hrow, rfl, ?_⟩
    cases hact with
    | pickJob i' j =>
      rw [fleet.named] at hi ⊢
      simp only [started, hi]
      exact Function.update_self _ _ _

/-- A job that is waited for is taken off the queue only by a program that has moved
the document on. -/
theorem waiting_of_queue (hs : HandOverInv sv fleet s) (hact : QueueCases fleet s a act)
    (h : s.queue.step act = some q) {d : DocumentId} {hst : DocumentStatus} {stage : JobStage}
    (hn : nextStage hst = some stage) {j : JobId} {r : Job}
    (hw : Waiting sv fleet s d hst stage j r) :
    ∃ r', Waiting sv fleet { s.withQueue q with rest := s.started sv a q } d hst stage j r' := by
  obtain ⟨r', hr', hstep⟩ := QueueState.step_row h hw.row
  obtain ⟨hdoc, hstage, -⟩ := hstep.same
  have hid : r.jobId = j := Table.key_of_lookup hw.row
  have own : ∀ {w : BaseWorker} {item : JobItem}, s.current w.workerId = some item →
      r.jobId = item.jobId → MovesOn sv d hst (fun o => ∃ m, o = .transient m)
        (s.rest w.workerId) :=
    fun hc hk => hw.programs _ _ hc (hk.symm.trans hid)
  refine ⟨r', hr', hdoc.trans hw.document, hstage.trans hw.stage, ?_, ?_⟩
  · cases hstep with
    | kept => exact hw.status
    | claimed => exact .inr (.inl rfl)
    | renewed w item _ hr => exact .inr (.inl hr)
    | completed w item _ hc hk =>
      have hm := own hc hk
      cases hact with
      | completed i hret =>
        rw [fleet.named, hret] at hm
        rcases hm with hm | hm
        · cases hm
        · obtain ⟨m, he⟩ := hm _ rfl
          cases he
    | failed w item message _ hc hk =>
      have hm := own hc hk
      cases hact with
      | failed i _ hret =>
        rw [fleet.named, hret] at hm
        rcases hm with hm | hm
        · cases hm
        · obtain ⟨m, he⟩ := hm _ rfl
          cases he
    | retried => exact .inl rfl
    | exhausted w item message more _ hc hk hmax =>
      refine .inr (.inr ⟨rfl, ?_⟩)
      obtain ⟨r₀, hr₀, -, -, hle⟩ := hs.items _ item hc
      rw [← hk, hid, hw.row] at hr₀
      obtain rfl := Option.some.inj hr₀
      cases hact with
      | retried i => exact ⟨i, Nat.le_trans hmax hle⟩
    | expired w _ hl hmax =>
      cases hact with
      | reapStuckJobs i => exact .inr (.inr ⟨rfl, i, hmax⟩)
    | reclaimed => exact .inl rfl
  · intro i item hi hk
    rcases queue_current hact h hi with ⟨hc, hrest⟩ | ⟨w, row, hrow, rfl, hrest⟩
    · show MovesOn sv d hst _ (s.started sv a q i)
      rw [hrest]
      exact hw.programs i item hc hk
    · show MovesOn sv d hst _ (s.started sv a q i)
      have hk' : row.jobId = j := hk
      rw [hk', hw.row] at hrow
      obtain rfl := Option.some.inj hrow
      rw [hrest, hw.document, hw.stage]
      exact processJob_moves hn d

theorem inv_of_queue (hs : HandOverInv sv fleet s) (hact : QueueCases fleet s a act)
    (h : s.queue.step act = some q) (hok : LeavesNothingOwed sv s a) :
    HandOverInv sv fleet { s.withQueue q with rest := s.started sv a q } where
  ids := by
    intro j r' hj
    obtain ⟨r, hr, -⟩ := queue_job hact h hj
    exact hs.ids j r hr
  items := by
    intro i item hi
    rcases @queue_current sv _ _ _ _ _ hact h _ _ hi with ⟨hc, -⟩ | ⟨w, row, hrow, rfl, -⟩
    · obtain ⟨r, hr, hd, hst, hle⟩ := hs.items i item hc
      obtain ⟨r', hr', hstep⟩ := QueueState.step_row h hr
      obtain ⟨hd', hst', hle'⟩ := hstep.same
      exact ⟨r', hr', hd'.trans hd, hst'.trans hst, Nat.le_trans hle hle'⟩
    · obtain ⟨r', hr', hstep⟩ := QueueState.step_row h hrow
      exact ⟨r', hr', hstep.same⟩
  workers := by
    intro i item hi
    show ∃ x, Conducts sv item.documentId x (s.started sv a q i)
    rcases queue_current hact h hi with ⟨hc, hrest⟩ | ⟨w, row, hrow, rfl, hrest⟩
    · rw [hrest]
      exact hs.workers i item hc
    · rw [hrest]
      exact ⟨.fresh, processJob_conducts row.stage row.documentId⟩
  uploads := hs.uploads
  covered := by
    intro d row stage hrow hstage
    have hrow' : s.world.doc d = some row := hrow
    cases hs.covered d row stage hrow' hstage with
    | upload p hp hh => exact .upload p hp hh
    | worker i item hi hd hh =>
      have hstay : ¬ act.leaves i := by
        intro hl
        cases hact with
        | completed i' hret | failed i' m hret =>
          have hi' : i' = i := (fleet.named i').symm.trans hl
          rw [← hi'] at hh
          exact not_owes_ret (.inl ⟨_, hret⟩) hh
        | retried i' m hret =>
          have hi' : i' = i := (fleet.named i').symm.trans hl
          rw [← hi'] at hh
          exact not_owes_ret hret hh
        | crash i' =>
          have hi' : i' = i := (fleet.named i').symm.trans hl
          subst hi'
          exact hok item hi ⟨row, stage, hd.symm ▸ hrow', hstage, hd.symm ▸ hh⟩
        | _ => exact hl
      refine .worker i item (current_stays h hi hstay) hd ?_
      show Owes sv d stage (s.started sv a q i)
      rw [started_of_current hact h hi]
      exact hh
    | job j r hw =>
      obtain ⟨r', hw'⟩ := waiting_of_queue hs hact h hstage hw
      exact .job j r' hw'

end Queue

theorem inv_of_step {a : RunAction} (hs : HandOverInv sv fleet s) (hok : LeavesNothingOwed sv s a)
    (h : s.step sv fleet a = some t) : HandOverInv sv fleet t := by
  cases step_cases h with
  | receive id filename data request mimeType hfree =>
    refine ⟨hs.ids, hs.items, hs.workers, ?_, ?_⟩
    · intro d p hp
      by_cases hd : d = id
      · subst hd
        have hp' : _ = some p := (Function.update_self _ _ s.uploads).symm.trans hp
        obtain rfl := Option.some.inj hp'
        exact ⟨.fresh, receive_conducts filename data request mimeType⟩
      · exact hs.uploads d p ((Function.update_of_ne hd _ s.uploads).symm.trans hp)
    · intro d row stage hrow hstage
      cases hs.covered d row stage hrow hstage with
      | upload p hp hh =>
        refine .upload p ?_ hh
        have hd : d ≠ id := by
          rintro rfl
          rw [hfree] at hp
          cases hp
        exact (Function.update_of_ne hd _ s.uploads).trans hp
      | worker i item hi hd hh => exact .worker i item hi hd hh
      | job j r hw => exact .job j r ⟨hw.row, hw.document, hw.stage, hw.status, hw.programs⟩
  | upload id luck p q w hp hstep =>
    obtain ⟨op, r, ho⟩ := operation_of_step hstep id
    exact Acted.inv (.upload p q ho hp rfl rfl rfl) hs
  | endUpload id =>
    refine ⟨hs.ids, hs.items, hs.workers, ?_, ?_⟩
    · intro d p hp
      by_cases hd : d = id
      · subst hd
        cases (Function.update_self _ _ s.uploads).symm.trans hp
      · exact hs.uploads d p ((Function.update_of_ne hd _ s.uploads).symm.trans hp)
    · intro d row stage hrow hstage
      cases hs.covered d row stage hrow hstage with
      | upload p hp hh =>
        refine .upload p ?_ hh
        have hd : d ≠ id := by
          rintro rfl
          exact hok p hp ⟨row, stage, hrow, hstage, hh⟩
        exact (Function.update_of_ne hd _ s.uploads).trans hp
      | worker i item hi hd hh => exact .worker i item hi hd hh
      | job j r hw => exact .job j r ⟨hw.row, hw.document, hw.stage, hw.status, hw.programs⟩
  | work i luck item q w hi hstep =>
    obtain ⟨op, r, ho⟩ := operation_of_step hstep item.documentId
    exact Acted.inv (.worker i item q ho hi rfl rfl rfl rfl) hs
  | queue _ act q hact hstep => exact inv_of_queue hs (queue_cases hact) hstep hok

theorem inv_of_fresh (h : s.Fresh) : HandOverInv sv fleet s where
  ids := by
    intro j r hj
    rw [h.jobs] at hj
    cases hj
  items := by
    intro i item hi
    rw [h.current] at hi
    cases hi
  workers := by
    intro i item hi
    rw [h.current] at hi
    cases hi
  uploads := by
    intro d p hp
    rw [h.uploads] at hp
    cases hp
  covered := by
    intro d row stage hrow
    have hmem := Documents.mem_of_get hrow
    rw [h.documents] at hmem
    cases hmem

end Steps

open Transition

variable {sv : Services} {fleet : Fleet}

/-- A job whose execution moves the document on: the one of the stage it waits for, or
one whose execution would queue that. -/
def Forwards (sv : Services) (w : World) (d : DocumentId) (stage : JobStage) (r : Job) : Prop :=
  r.documentId = d ∧ (r.status = .pending ∨ r.status = .running) ∧
    (r.stage = stage ∨ ∃ o w', Ends (Healthy sv) (processJob sv r.stage d) w o w' ∧
      ∃ r' ∈ w'.jobs, r' ∉ w.jobs ∧ r'.documentId = d ∧ r'.stage = stage)

/-- A document nobody is at work on, none of whose jobs has run out of retries, and that
waits for a stage has a job that forwards it. -/
def NoneStranded (sv : Services) (fleet : Fleet) (s : RunningState) : Prop :=
  ∀ d row stage, s.uploads d = none →
    (∀ i item, s.current i = some item → item.documentId ≠ d) →
    (∀ r ∈ s.world.jobs, r.documentId = d → ¬ Exhausted fleet r) →
    s.world.doc d = some row → nextStage row.status = some stage →
    ∃ r ∈ s.world.jobs, Forwards sv s.world d stage r

/-- Five workers for the five stages, and so on. -/
def stageOf (i : WorkerId) : JobStage :=
  match i % 5 with
  | 0 => .scan
  | 1 => .extract
  | 2 => .normalize
  | 3 => .chunk
  | _ => .embed

def plainFleet : Fleet where
  worker i := { scanWorker i with stage := stageOf i }
  named _ := rfl

/-- The action ends no program before its time. -/
def RunAction.stays : RunAction → Bool
  | .endUpload _ | .crash _ => false
  | _ => true

def freshState : RunningState where
  world := World.empty
  current _ := none
  renewers _ := []
  rest _ := .ret .completed
  uploads _ := none

theorem freshState_fresh : freshState.Fresh := ⟨fun _ => rfl, fun _ => rfl, rfl, rfl, rfl⟩

/-- One upload, up to its last operation. -/
def receiveRun : List RunAction :=
  [.receive 0 "memo.pdf" [37] plainRequest "application/pdf", .upload 0 .fine, .upload 0 .fine,
    .upload 0 .fine, .upload 0 .fine]

def uploadRun : List RunAction := receiveRun ++ [.endUpload 0]

/-- The scan of that upload up to the commit of the promotion, and the death of its
worker; when the lease has lapsed the reaper returns the job. -/
def dyingScan : List RunAction :=
  .pickJob 0 0 :: List.replicate 7 (.work 0 .fine) ++
    [.crash 0, .tick 61, .reapStuckJobs 1]

def ranTo (as : List RunAction) : RunningState :=
  finalState (step plainServices plainFleet) freshState as

/-- The job of the scan as the reaper leaves it. -/
def reapedScan : Job :=
  { newJob 0 0 .scan 0 with retryCount := 1, scheduledAt := 66, startedAt := some 0 }

end KnowledgeBase
