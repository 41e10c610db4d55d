import KnowledgeBase.Rerun

/-! A scan that dies between two of its effects and is run again. The second run reads
the file from quarantine or takes the row as done; between the delete from quarantine
and the commit of the promotion it can do neither. -/

namespace KnowledgeBase

open Program

section Healthy

variable {β : Type} {sv : Services} {w u t : World} {op : Op} {o : Except Exn β}

theorem healthy_ends {a : op.Resp} {k : op.Resp → Stage β}
    (ha : effect sv .fine op w = (.ok a, u)) (h : Ends (Healthy sv) (send op >>= k) w o t) :
    Ends (Healthy sv) (k a) u o t := by
  rcases ends_send_bind.mp h with ⟨e, he, -⟩ | ⟨b, v, hb, hk⟩
  · cases ha.symm.trans he
  · cases ha.symm.trans hb
    exact hk

theorem healthy_attempt_ends {r : Except Exn op.Resp} {k : Except Exn op.Resp → Stage β}
    (ha : effect sv .fine op w = (r, u))
    (h : Ends (Healthy sv) (attempt (send op) >>= k) w o t) : Ends (Healthy sv) (k r) u o t := by
  obtain ⟨b, v, hb, hk⟩ := ends_attempt_send_bind.mp h
  cases ha.symm.trans hb
  exact hk

theorem healthy_visits {a : op.Resp} {k : op.Resp → Stage β}
    (ha : effect sv .fine op w = (.ok a, u)) (h : Visits (Healthy sv) (send op >>= k) w t) :
    t = w ∨ Visits (Healthy sv) (k a) u t := by
  rcases visits_bind h with h | ⟨b, v, hb, hk⟩
  · rcases visits_perform h with rfl | ⟨r, hr⟩
    · exact .inl rfl
    · cases ha.symm.trans hr
      exact .inr (.start _ _)
  · cases ha.symm.trans (ends_perform.mp hb)
    exact .inr hk

theorem healthy_attempt_visits {r : Except Exn op.Resp} {k : Except Exn op.Resp → Stage β}
    (ha : effect sv .fine op w = (r, u)) (h : Visits (Healthy sv) (attempt (send op) >>= k) w t) :
    t = w ∨ Visits (Healthy sv) (k r) u t := by
  rcases visits_attempt_bind h with h | ⟨b, v, hb, hk⟩
  · rcases visits_perform h with rfl | ⟨r, hr⟩
    · exact .inl rfl
    · cases ha.symm.trans hr
      exact .inr (.start _ _)
  · cases ha.symm.trans (ends_perform.mp hb)
    exact .inr hk

end Healthy

namespace ScanJobHandler

variable {sv : Services} {w w' : World} {d : Document} {data : Bytes} {key rawKey : ObjectKey}

theorem effect_getObject_fine {b : Bucket} (h : w.objects b key = some data) :
    effect sv .fine (.getObject b key) w = (.ok data, w) := by
  simp only [effect, h, found]

theorem setObject_objects_self (w : World) (b : Bucket) (k : ObjectKey) (v : Option Bytes) :
    (w.setObject b k v).objects b k = v := by
  simp [World.setObject]

theorem setObject_objects_other {b b' : Bucket} (hb : b' ≠ b) (w : World) (k k' : ObjectKey)
    (v : Option Bytes) : (w.setObject b k v).objects b' k' = w.objects b' k' := by
  simp [World.setObject, Function.update_of_ne hb]

/-- Everything the move can leave behind: the file is still in quarantine, or it is in
the raw bucket only. -/
theorem moveToRaw_visits (hobj : w.objects .quarantine key = some data)
    (h : Visits (Healthy sv) (moveToRaw key rawKey) w w') :
    w'.documents = w.documents ∧
      (w'.objects .quarantine key = some data ∨ w'.objects .quarantine key = none) := by
  unfold moveToRaw at h
  rcases healthy_visits rfl h with rfl | h
  · exact ⟨rfl, .inl hobj⟩
  · split at h
    · rcases healthy_visits rfl h with rfl | h
      · exact ⟨rfl, .inl hobj⟩
      · obtain rfl := visits_pure h
        exact ⟨rfl, .inr (setObject_objects_self _ _ _ _)⟩
    · have hcopy : effect sv .fine (.copyObject .quarantine key .raw rawKey) w =
          (.ok (), w.setObject .raw rawKey (some data)) := by
        simp only [effect, hobj, found]
      rcases healthy_visits hcopy h with rfl | h
      · exact ⟨rfl, .inl hobj⟩
      · rcases healthy_visits rfl h with rfl | h
        · refine ⟨rfl, .inl ?_⟩
          rw [setObject_objects_other (by decide)]
          exact hobj
        · obtain rfl := visits_pure h
          exact ⟨rfl, .inr (setObject_objects_self _ _ _ _)⟩

theorem moveToRaw_ends {r : Except Exn Unit} (hobj : w.objects .quarantine key = some data)
    (h : Ends (Healthy sv) (moveToRaw key rawKey) w r w') :
    r = .ok () ∧ w'.documents = w.documents ∧ w'.objects .quarantine key = none := by
  unfold moveToRaw at h
  have h' := healthy_ends rfl h
  split at h'
  · have h'' := healthy_ends rfl h'
    obtain ⟨hr, rfl⟩ := ends_ret.mp h''
    exact ⟨hr, rfl, setObject_objects_self _ _ _ _⟩
  · have hcopy : effect sv .fine (.copyObject .quarantine key .raw rawKey) w =
        (.ok (), w.setObject .raw rawKey (some data)) := by
      simp only [effect, hobj, found]
    have h'' := healthy_ends rfl (healthy_ends hcopy h')
    obtain ⟨hr, rfl⟩ := ends_ret.mp h''
    exact ⟨hr, rfl, setObject_objects_self _ _ _ _⟩

/-- A promotion of a file that is there, with a row the index takes, is recorded. -/
theorem promote_recorded {doc row : Document} {v : ValidationResult}
    {o : Except Exn UploadResponse} (hr : w.doc doc.id = some row)
    (hstored : w.objects .quarantine key = some data)
    (haccepted : ∃ t, w.documents.updateDocument (promoted doc v) = some t)
    (hp : Ends (Healthy sv) (promote doc key v) w o w') :
    w'.doc doc.id = some ((promoted doc v).writeBack row) := by
  unfold promote at hp
  obtain ⟨r, u, hu, hp⟩ := ends_attempt_bind.mp hp
  obtain ⟨rfl, hdocs, hobj⟩ := moveToRaw_ends hstored hu
  obtain ⟨t, ht⟩ := haccepted
  have hup : effect sv .fine (.updateDocument (promoted doc v)) u =
      (.ok (), { u with documents := t }) := by
    simp only [effect, hdocs, ht, World.commit]
  have hp := healthy_attempt_ends hup hp
  have hrow := Documents.updateDocument_get ht hr
  exact (hp.invariant (I := fun s : World => s.doc doc.id = t.get doc.id)
    (handOver_sends doc _ _ _)
    (fun _ _ _ _ hop ha hs => (doc_of_acts (healthy_acts ha) hop).trans hs) rfl).trans hrow

/-- A document in quarantine whose file passes the checks and is nobody else's. -/
structure Scannable (sv : Services) (w : World) (d : Document) (data : Bytes) : Prop where
  row : w.doc d.id = some d
  entry : d.status ∈ entryStatuses .scan
  stored : w.objects .quarantine (quarantineKeyFor d) = some data
  valid : (sv.validateDocument data d.mimeType).isValid = true
  alone : ∀ e ∈ w.documents.rows,
    e.checksum = some (sv.validateDocument data d.mimeType).sha256 → e.id = d.id

namespace Scannable

def hashed (sv : Services) (d : Document) (data : Bytes) : Document :=
  { d with checksum := some (sv.validateDocument data d.mimeType).sha256 }

/-- The row the promotion commits. -/
def promotedRow (sv : Services) (d : Document) (data : Bytes) : Document :=
  (promoted (hashed sv d data) (sv.validateDocument data d.mimeType)).writeBack d

theorem of_documents {u : World} (h : Scannable sv w d data)
    (hdocs : u.documents = w.documents)
    (hobj : u.objects .quarantine (quarantineKeyFor d) = some data) : Scannable sv u d data := by
  refine ⟨?_, h.entry, hobj, h.valid, hdocs ▸ h.alone⟩
  rw [World.doc, hdocs]
  exact h.row

theorem unguarded (h : Scannable sv w d data) :
    ¬ (d.status ∈ promotedStatuses ∨ d.status ∈ finalizedStatuses) := by
  have he := h.entry
  simp only [entryStatuses, List.mem_cons, List.not_mem_nil, or_false] at he
  rcases he with he | he | he <;> rw [he] <;> decide

theorem active (h : Scannable sv w d data) : d.active = true := by
  have he := h.entry
  simp only [entryStatuses, List.mem_cons, List.not_mem_nil, or_false] at he
  rcases he with he | he | he <;> rw [Document.active, he] <;> rfl

theorem accepted (h : Scannable sv w d data) :
    ∃ t, w.documents.updateDocument
      (promoted (hashed sv d data) (sv.validateDocument data d.mimeType)) = some t := by
  cases hu : w.documents.updateDocument
      (promoted (hashed sv d data) (sv.validateDocument data d.mimeType)) with
  | some t => exact ⟨t, rfl⟩
  | none =>
    obtain ⟨-, e, he, hid, -, -, hc⟩ := Documents.updateDocument_eq_none hu h.row
    exact absurd (h.alone e he hc) hid

/-- A state that the first run may leave behind: nothing is written yet, or the file is
out of quarantine with nothing written, or the promotion is committed. -/
inductive Left (sv : Services) (w : World) (d : Document) (data : Bytes) (w' : World) : Prop
  | intact (hdocs : w'.documents = w.documents)
      (hobj : w'.objects .quarantine (quarantineKeyFor d) = some data)
  | lost (hdocs : w'.documents = w.documents)
      (hobj : w'.objects .quarantine (quarantineKeyFor d) = none)
  | promoted (hrow : w'.doc d.id = some (promotedRow sv d data))

theorem promote_visits (h : Scannable sv w d data)
    (hp : Visits (Healthy sv) (promote (hashed sv d data) (quarantineKeyFor d)
      (sv.validateDocument data d.mimeType)) w w') : Left sv w d data w' := by
  unfold promote at hp
  rcases visits_attempt_bind hp with hp | ⟨r, u, hu, hp⟩
  · obtain ⟨hdocs, hobj | hobj⟩ := moveToRaw_visits h.stored hp
    · exact .intact hdocs hobj
    · exact .lost hdocs hobj
  · obtain ⟨rfl, hdocs, hobj⟩ := moveToRaw_ends h.stored hu
    obtain ⟨t, ht⟩ := h.accepted
    have hup : effect sv .fine (.updateDocument (promoted (hashed sv d data)
        (sv.validateDocument data d.mimeType))) u = (.ok (), { u with documents := t }) := by
      simp only [effect, hdocs, ht, World.commit]
    rcases healthy_attempt_visits hup hp with rfl | hp
    · exact .lost hdocs hobj
    · refine .promoted ?_
      have hrow := Documents.updateDocument_get ht h.row
      exact (hp.invariant (I := fun s : World => s.doc d.id = t.get d.id)
        (handOver_sends (hashed sv d data) _ _ _)
        (fun _ _ _ _ hop ha hs => (doc_of_acts (healthy_acts ha) hop).trans hs) rfl).trans hrow

theorem promote_ends {o : Except Exn UploadResponse} (h : Scannable sv w d data)
    (hp : Ends (Healthy sv) (promote (hashed sv d data) (quarantineKeyFor d)
      (sv.validateDocument data d.mimeType)) w o w') :
    w'.doc d.id = some (promotedRow sv d data) :=
  promote_recorded (show w.doc (hashed sv d data).id = some d from h.row) h.stored h.accepted hp

theorem dedup_canonical (h : Scannable sv w d data) {e : Document}
    (hx : w.documents.getByChecksum (sv.validateDocument data d.mimeType).sha256 = some e) :
    ¬ e.id ≠ (hashed sv d data).id := by
  obtain ⟨he, hc, -⟩ := Documents.getByChecksum_spec hx
  exact not_not.mpr (h.alone e (Documents.mem_of_get he) hc)

theorem dedup_visits (h : Scannable sv w d data)
    (hp : Visits (Healthy sv) (dedupAndPromote (hashed sv d data) (quarantineKeyFor d)
      (sv.validateDocument data d.mimeType) none) w w') : Left sv w d data w' := by
  unfold dedupAndPromote at hp
  rcases healthy_visits rfl hp with rfl | hp
  · exact .intact rfl h.stored
  · cases hx : w.documents.getByChecksum (sv.validateDocument data d.mimeType).sha256 with
    | none =>
      simp only [hx] at hp
      exact h.promote_visits hp
    | some e =>
      simp only [hx, if_neg (h.dedup_canonical hx)] at hp
      exact h.promote_visits hp

theorem dedup_ends {o : Except Exn UploadResponse} (h : Scannable sv w d data)
    (hp : Ends (Healthy sv) (dedupAndPromote (hashed sv d data) (quarantineKeyFor d)
      (sv.validateDocument data d.mimeType) none) w o w') :
    w'.doc d.id = some (promotedRow sv d data) := by
  unfold dedupAndPromote at hp
  have hp := healthy_ends rfl hp
  cases hx : w.documents.getByChecksum (sv.validateDocument data d.mimeType).sha256 with
  | none =>
    simp only [hx] at hp
    exact h.promote_ends hp
  | some e =>
    simp only [hx, if_neg (h.dedup_canonical hx)] at hp
    exact h.promote_ends hp

theorem process_visits (h : Scannable sv w d data)
    (hp : Visits (Healthy sv) (process sv d.id none) w w') : Left sv w d data w' := by
  unfold process at hp
  have hget : effect sv .fine (.getById d.id) w = (.ok (some d), w) := by
    simp only [effect, h.row]
  rcases healthy_visits hget hp with rfl | hp
  · exact .intact rfl h.stored
  · simp only [if_neg h.unguarded] at hp
    rcases healthy_attempt_visits (effect_getObject_fine h.stored) hp with rfl | hp
    · exact .intact rfl h.stored
    · simp only [h.valid, if_true] at hp
      exact h.dedup_visits hp

theorem process_ends {o : Except Exn UploadResponse} (h : Scannable sv w d data)
    (hp : Ends (Healthy sv) (process sv d.id none) w o w') :
    w'.doc d.id = some (promotedRow sv d data) := by
  unfold process at hp
  have hget : effect sv .fine (.getById d.id) w = (.ok (some d), w) := by
    simp only [effect, h.row]
  have hp := healthy_ends hget hp
  simp only [if_neg h.unguarded] at hp
  have hp := healthy_attempt_ends (effect_getObject_fine h.stored) hp
  simp only [h.valid, if_true] at hp
  exact h.dedup_ends hp

/-- With the file gone and the row as it was, the second run gives the document up. -/
theorem lost_ends {u : World} {o : Except Exn UploadResponse} (h : Scannable sv w d data)
    (hdocs : u.documents = w.documents) (hobj : u.objects .quarantine (quarantineKeyFor d) = none)
    (hp : Ends (Healthy sv) (process sv d.id none) u o w') :
    ∃ row, w'.doc d.id = some row ∧ row.status = .validationFailed := by
  have hrow : u.doc d.id = some d := by
    rw [World.doc, hdocs]
    exact h.row
  unfold process at hp
  have hget : effect sv .fine (.getById d.id) u = (.ok (some d), u) := by
    simp only [effect, hrow]
  have hp := healthy_ends hget hp
  simp only [if_neg h.unguarded] at hp
  have hread : effect sv .fine (.getObject .quarantine (quarantineKeyFor d)) u =
      (.error notFound, u) := by simp only [effect, hobj, found]
  have hp := (healthy_attempt_ends hread hp).mono (fun _ _ _ _ => healthy_acts)
  rcases writeBack_of_ends hp hrow trivial with ⟨hn, -, -⟩ | hw
  · obtain ⟨-, e, he, hid, hea, hne, hc⟩ := Documents.updateDocument_eq_none hn hrow
    have hself := u.documents.unique e he d (Documents.mem_of_get hrow) hea h.active
      (by rw [hc]; exact hne) hc
    exact absurd hself hid
  · exact ⟨_, hw, rfl⟩

end Scannable

end ScanJobHandler

open ScanJobHandler

theorem processJob_scan_visits {act : Program.Acts Op Op.Resp Exn World} {sv : Services}
    {w w' : World} {id : DocumentId} (h : Visits act (processJob sv .scan id) w w') :
    Visits act (ScanJobHandler.process sv id none) w w' := by
  rcases visits_bind h with h | ⟨a, u, ha, h⟩
  · exact h
  · obtain rfl := visits_pure h
    exact ha.visits

theorem processJob_scan_healthy {sv : Services} {w w' : World} {id : DocumentId}
    {o : Except Exn JobOutcome} (h : Ends (Healthy sv) (processJob sv .scan id) w o w') :
    ∃ o', Ends (Healthy sv) (ScanJobHandler.process sv id none) w o' w' := by
  rcases ends_bind.mp h with ⟨e, he, -⟩ | ⟨a, u, ha, hr⟩
  · exact ⟨_, he⟩
  · obtain ⟨-, rfl⟩ := ends_ret.mp hr
    exact ⟨_, ha⟩

/-- The row of the document is the same in both, as far as the scan writes it. -/
def SameScan (id : DocumentId) (w w' : World) : Prop :=
  ∃ a b, w.doc id = some a ∧ w'.doc id = some b ∧ a.status = b.status ∧
    a.checksum = b.checksum ∧ a.rawPath = b.rawPath ∧ a.quarantinePath = b.quarantinePath

/-- Wherever the first run dies, the second ends as an uninterrupted one does exactly
when the first left the file in quarantine or had committed the promotion. -/
theorem scan_recovers_iff {sv : Services} {w w₁ w₂ w₀ : World} {d : Document} {data : Bytes}
    {o₂ o₀ : Except Exn JobOutcome} (h : Scannable sv w d data)
    (hcrash : Visits (Healthy sv) (processJob sv .scan d.id) w w₁)
    (hrerun : Ends (Healthy sv) (processJob sv .scan d.id) w₁ o₂ w₂)
    (hrun : Ends (Healthy sv) (processJob sv .scan d.id) w o₀ w₀) :
    SameScan d.id w₂ w₀ ↔ w₁.objects .quarantine (quarantineKeyFor d) ≠ none ∨
      ∃ row, w₁.doc d.id = some row ∧ row.status = .validated := by
  obtain ⟨o₂', hrerun'⟩ := processJob_scan_healthy hrerun
  obtain ⟨o₀', hrun'⟩ := processJob_scan_healthy hrun
  have h0 := h.process_ends hrun'
  cases h.process_visits (processJob_scan_visits hcrash) with
  | intact hdocs hobj =>
    have h2 := (h.of_documents hdocs hobj).process_ends hrerun'
    refine ⟨fun _ => .inl (by simp [hobj]), fun _ => ⟨_, _, h2, h0, rfl, rfl, rfl, rfl⟩⟩
  | lost hdocs hobj =>
    obtain ⟨row, h2, hst⟩ := h.lost_ends hdocs hobj hrerun'
    constructor
    · rintro ⟨a, b, ha, hb, hs, -⟩
      cases ha.symm.trans h2
      cases hb.symm.trans h0
      rw [hst] at hs
      cases hs
    · rintro (hno | ⟨row', hr', hs'⟩)
      · exact absurd hobj hno
      · rw [World.doc, hdocs] at hr'
        cases hr'.symm.trans h.row
        have he := h.entry
        rw [hs'] at he
        exact absurd he (by decide)
  | promoted hrow =>
    have h2 := process_skips hrow (.inl List.mem_cons_self)
      (hrerun'.mono fun _ _ _ _ => healthy_acts)
    refine ⟨fun _ => .inr ⟨_, hrow, rfl⟩, fun _ => ?_⟩
    exact ⟨_, _, h2 ▸ hrow, h0, rfl, rfl, rfl, rfl⟩

/-- Wherever a scan dies, running it again ends as an uninterrupted run. -/
def ScanRecovers : Prop :=
  ∀ (sv : Services) (w w₁ w₂ w₀ : World) (d : Document) (data : Bytes)
    (o₂ o₀ : Except Exn JobOutcome), Scannable sv w d data →
    Visits (Healthy sv) (processJob sv .scan d.id) w w₁ →
    Ends (Healthy sv) (processJob sv .scan d.id) w₁ o₂ w₂ →
    Ends (Healthy sv) (processJob sv .scan d.id) w o₀ w₀ → SameScan d.id w₂ w₀

/-- One document, just uploaded. -/
def quarantinedWorld : World :=
  { (World.empty.setObject .quarantine (.ofDocument 0 ".pdf") (some [37])) with
    documents := ⟨[uploadedRow 0 id], by decide, by decide⟩ }

theorem quarantined_scannable : Scannable plainServices quarantinedWorld (uploadedRow 0 id) [37] :=
  ⟨rfl, by decide, rfl, rfl, by decide⟩

def runHealthy (w : World) : Except Exn JobOutcome × World :=
  run (effect plainServices) (fun _ => .fine) (processJob plainServices .scan 0) w

/-- What is left when the worker dies after `n` operations. -/
def crashedAfter (n : Nat) : World :=
  (after (effect plainServices) (fun _ => .fine) n (processJob plainServices .scan 0)
    quarantinedWorld).2

theorem runHealthy_ends (w : World) :
    Ends (Healthy plainServices) (processJob plainServices .scan 0) w (runHealthy w).1
      (runHealthy w).2 := ends_run (fun _ _ _ => rfl) _ _

theorem crashedAfter_visited (n : Nat) :
    Visits (Healthy plainServices) (processJob plainServices .scan 0) quarantinedWorld
      (crashedAfter n) := visits_after (fun _ _ _ => rfl) n _ _

/-- Dying before the copy is made up for. -/
theorem recovers_before_the_copy :
    SameScan 0 (runHealthy (crashedAfter 4)).2 (runHealthy quarantinedWorld).2 :=
  (scan_recovers_iff quarantined_scannable (crashedAfter_visited 4) (runHealthy_ends _)
    (runHealthy_ends _)).mpr (.inl (by decide +kernel))

/-- Six operations in, the file is in the raw bucket, out of quarantine, and the row
says nothing of it; the second run ends in a failed validation. -/
theorem dies_between_move_and_commit : ¬ ScanRecovers := by
  intro h
  obtain ⟨a, b, ha, hb, hst, -⟩ := h _ _ _ _ _ _ _ _ _ quarantined_scannable
    (crashedAfter_visited 6) (runHealthy_ends _) (runHealthy_ends _)
  have hfailed : ((runHealthy (crashedAfter 6)).2.doc 0).map Document.status =
      some .validationFailed := by decide +kernel
  have hpromoted : ((runHealthy quarantinedWorld).2.doc 0).map Document.status =
      some .validated := by decide +kernel
  have ha' : (runHealthy (crashedAfter 6)).2.doc 0 = some a := ha
  have hb' : (runHealthy quarantinedWorld).2.doc 0 = some b := hb
  rw [ha', Option.map_some, hst] at hfailed
  rw [hb', Option.map_some] at hpromoted
  cases hfailed.symm.trans hpromoted

end KnowledgeBase
