import KnowledgeBase.Erasure
import KnowledgeBase.ScanRecovery

/-! What an erasure frees: no row stands for the content any more, and a file with the same
bytes that is uploaded afterwards is promoted. -/

namespace KnowledgeBase

open Program ScanJobHandler

section Freed

variable {w : World} {d : Document} {sha256 : Sha256}

/-- The document that stands for a content. -/
structure Bears (w : World) (d : Document) (sha256 : Sha256) : Prop where
  row : w.doc d.id = some d
  active : d.active = true
  checksum : d.checksum = some sha256
  unpurged : d.purgedAt = none

/-- Each row with the hash after the erasure was there before, and is neither the document
erased nor a re-upload of it. -/
theorem Bears.row_before (h : Bears w d sha256) (hfree : w.busy d.id = false) {k : DocumentId}
    {r : Document} (hr : (w.eraseDocument d).doc k = some r) (hc : r.checksum = some sha256) :
    w.doc k = some r ∧ k ≠ d.id ∧ r.status ≠ .duplicate := by
  obtain ⟨a, ha⟩ := w.eraseDocument_eq hfree
  have hdoc : (w.eraseDocument d).doc k = (w.tombstoned d).get k := by rw [ha]; rfl
  rw [hdoc, World.tombstoned_get] at hr
  obtain ⟨q, hq, rfl⟩ := Option.map_eq_some_iff.mp hr
  split at hc
  · cases hc
  · rename_i hself
    have hk : k ≠ d.id := by
      intro hk
      subst hk
      obtain rfl := Option.some.inj (h.row.symm.trans hq)
      exact hself ⟨rfl, h.unpurged⟩
    split at hc
    · cases hc
    · rename_i hdup
      rw [if_neg hself, if_neg hdup]
      refine ⟨hq, hk, fun hs => hdup ⟨?_, hc.trans h.checksum.symm, hs⟩⟩
      rw [h.checksum]
      exact Option.some_ne_none _

/-- No active row has the hash. -/
theorem Bears.inactive_after (h : Bears w d sha256) (hfree : w.busy d.id = false)
    {r : Document} (hr : r ∈ (w.eraseDocument d).documents.rows)
    (hc : r.checksum = some sha256) : r.active = false := by
  obtain ⟨hw, hne, -⟩ := h.row_before hfree (Documents.get_of_mem hr) hc
  rw [Bool.eq_false_iff]
  intro ha
  have hsame := w.documents.unique r (Documents.mem_of_get hw) d (Documents.mem_of_get h.row) ha
    h.active (by rw [hc]; exact Option.some_ne_none _) (by rw [hc, h.checksum])
  exact hne hsame

theorem Bears.lookup_after (h : Bears w d sha256) (hfree : w.busy d.id = false) :
    (w.eraseDocument d).documents.getByChecksum sha256 = none := by
  cases hx : (w.eraseDocument d).documents.getByChecksum sha256 with
  | none => rfl
  | some e =>
    obtain ⟨he, hc, ha⟩ := Documents.getByChecksum_spec hx
    rw [h.inactive_after hfree (Documents.mem_of_get he) hc] at ha
    cases ha

theorem chunks_after (hfree : w.busy d.id = false) {c : Chunk}
    (hc : c ∈ (w.eraseDocument d).chunks) : c.documentId ≠ d.id := by
  obtain ⟨a, ha⟩ := w.eraseDocument_eq hfree
  rw [ha] at hc
  simpa using List.of_mem_filter hc

theorem jobs_after (hfree : w.busy d.id = false) {j : Job} (hj : j ∈ (w.eraseDocument d).jobs)
    (hid : j.documentId = d.id) : j.status ≠ .pending ∧ j.status ≠ .running := by
  obtain ⟨a, ha⟩ := w.eraseDocument_eq hfree
  rw [ha] at hj
  obtain ⟨q, hq, rfl⟩ := List.mem_map.mp hj
  have hidle := List.any_eq_false.mp hfree q hq
  unfold World.cancelJob at hid ⊢
  split at hid
  · rename_i hp
    simp [hp.1, hp.2]
  · rename_i hp
    rw [if_neg hp]
    simp only [Bool.and_eq_true, decide_eq_true_eq, not_and] at hidle hp
    exact ⟨hp hid, hidle hid⟩

end Freed

section Promoted

variable {sv : Services} {w u u' : World} {id : DocumentId} {filename : String} {data : Bytes}
  {request : UploadRequest} {mimeType : String} {sha256 : Sha256}

/-- What a healthy upload leaves: the row it registers beside the others, and the file. -/
theorem receive_ends {o : Except Exn UploadResponse} (hnew : w.doc id = none)
    (h : Ends (Healthy sv) (UploadService.receive id filename data request mimeType) w o u) :
    u.doc id = some (UploadService.received id filename data request mimeType) ∧
      (∀ k, k ≠ id → u.doc k = w.doc k) ∧
      u.objects .quarantine (buildQuarantineKey id mimeType) = some data := by
  unfold UploadService.receive at h
  let v : World := w.setObject .quarantine (buildQuarantineKey id mimeType) (some data)
  have hput : effect sv .fine (.putObject .quarantine (buildQuarantineKey id mimeType) data) w =
      (.ok (), v) := rfl
  have h := healthy_ends hput h
  obtain ⟨t, ht⟩ := Documents.insert_accepted
    (d := (UploadService.received id filename data request mimeType).created) hnew rfl
    (Option.some_ne_none _)
  have hcreate : effect sv .fine
      (.create (UploadService.received id filename data request mimeType)) v =
      (.ok (), { v with documents := t }) := by
    simp only [effect]
    show World.commit v (w.documents.insert _) = _
    rw [ht, World.commit]
  have h := healthy_ends hcreate h
  have h := healthy_ends rfl h
  have h := healthy_ends rfl h
  obtain ⟨-, rfl⟩ := ends_ret.mp h
  obtain ⟨a, ha⟩ := auditEvent_eq (World.enqueue { v with documents := t } id .scan) id
    .documentQuarantined true
  simp only [if_true, ha]
  have hget := fun k => Documents.insert_get ht k
  have hobj : v.objects .quarantine (buildQuarantineKey id mimeType) = some data :=
    setObject_objects_self w _ _ _
  refine ⟨?_, ?_, hobj⟩
  · have hself := hget id
    have hnone : w.documents.get id = none := hnew
    rw [hnone, Option.none_or] at hself
    exact hself.trans (if_pos rfl)
  · intro k hk
    have hother := hget k
    rw [if_neg (by exact fun he => hk he.symm), Option.or_none] at hother
    exact hother

/-- A file in quarantine is promoted where the lookup finds nothing of its hash. -/
theorem scan_promotes {o : Except Exn JobOutcome} {d : Document}
    (hd : u.doc d.id = some d) (hs : d.status = .quarantined)
    (hstored : u.objects .quarantine (quarantineKeyFor d) = some data)
    (hvalid : (sv.validateDocument data d.mimeType).isValid = true)
    (hnone : u.documents.getByChecksum (sv.validateDocument data d.mimeType).sha256 = none)
    (h : Ends (Healthy sv) (processJob sv .scan d.id) u o u') :
    ∃ row, u'.doc d.id = some row ∧ row.status = .validated := by
  obtain ⟨o', hp⟩ := processJob_scan_healthy h
  unfold process at hp
  have hget : effect sv .fine (.getById d.id) u = (.ok (some d), u) := by simp only [effect, hd]
  have hp := healthy_ends hget hp
  have hguard : ¬ (d.status ∈ promotedStatuses ∨ d.status ∈ finalizedStatuses) := by
    rw [hs]
    decide
  simp only [if_neg hguard] at hp
  have hp := healthy_attempt_ends (effect_getObject_fine hstored) hp
  simp only [hvalid, if_true] at hp
  unfold dedupAndPromote at hp
  have hp := healthy_ends rfl hp
  simp only [hnone] at hp
  let doc : Document := { d with checksum := some (sv.validateDocument data d.mimeType).sha256 }
  have haccepted : ∃ t, u.documents.updateDocument
      (promoted doc (sv.validateDocument data d.mimeType)) = some t := by
    cases hu : u.documents.updateDocument (promoted doc (sv.validateDocument data d.mimeType)) with
    | some t => exact ⟨t, rfl⟩
    | none =>
      obtain ⟨-, e, he, hid, hea, -, hc⟩ := Documents.updateDocument_eq_none hu hd
      have hina := Documents.getByChecksum_eq_none hnone (Documents.get_of_mem he) hc
      rw [hina] at hea
      cases hea
  have hrow := promote_recorded (show u.doc doc.id = some d from hd) hstored haccepted hp
  exact ⟨_, hrow, rfl⟩

/-- An upload brings no hash with it. -/
theorem lookup_of_receive {o : Except Exn UploadResponse} (hnew : w.doc id = none)
    (h : Ends (Healthy sv) (UploadService.receive id filename data request mimeType) w o u)
    (hnone : w.documents.getByChecksum sha256 = none) :
    u.documents.getByChecksum sha256 = none := by
  obtain ⟨hself, hother, -⟩ := receive_ends hnew h
  cases hx : u.documents.getByChecksum sha256 with
  | none => rfl
  | some e =>
    obtain ⟨he, hc, ha⟩ := Documents.getByChecksum_spec hx
    by_cases hid : e.id = id
    · have hrow : u.doc id = some e := hid ▸ he
      obtain rfl := Option.some.inj (hself.symm.trans hrow)
      cases hc
    · have hrow : w.doc e.id = some e := (hother e.id hid).symm.trans he
      rw [Documents.getByChecksum_eq_none hnone hrow hc] at ha
      cases ha

end Promoted

/-- After the delete of the document that stands for a content nothing does: the hash is not
found, no re-upload of it is left, nothing of the document is, and the same bytes are
promoted when they come again. -/
theorem erase_frees_content (sv : Services) {w : World} {d : Document} {sha256 : Sha256}
    (h : Bears w d sha256) (hfree : w.busy d.id = false) :
    (w.eraseDocument d).documents.getByChecksum sha256 = none ∧
      (∀ r ∈ (w.eraseDocument d).documents.rows, r.checksum = some sha256 →
        r.status ≠ .duplicate) ∧
      (∀ c ∈ (w.eraseDocument d).chunks, c.documentId ≠ d.id) ∧
      (∀ j ∈ (w.eraseDocument d).jobs, j.documentId = d.id →
        j.status ≠ .pending ∧ j.status ≠ .running) ∧
      ∀ (id : DocumentId) (filename : String) (data : Bytes) (request : UploadRequest)
        (mimeType : String) (o : Except Exn UploadResponse) (u : World)
        (o' : Except Exn JobOutcome) (u' : World), (w.eraseDocument d).doc id = none →
        (sv.validateDocument data mimeType).isValid = true →
        (sv.validateDocument data mimeType).sha256 = sha256 →
        Ends (Healthy sv) (UploadService.receive id filename data request mimeType)
          (w.eraseDocument d) o u →
        Ends (Healthy sv) (processJob sv .scan id) u o' u' →
        ∃ row, u'.doc id = some row ∧ row.status = .validated := by
  have hlookup := h.lookup_after hfree
  refine ⟨hlookup, fun r hr hc => (h.row_before hfree (Documents.get_of_mem hr) hc).2.2,
    fun c hc => chunks_after hfree hc, fun j hj hid => jobs_after hfree hj hid, ?_⟩
  intro id filename data request mimeType o u o' u' hnew hvalid hsha hreceive hscan
  obtain ⟨hself, -, hobj⟩ := receive_ends hnew hreceive
  have hnone := lookup_of_receive hnew hreceive hlookup
  rw [← hsha] at hnone
  let row := UploadService.received id filename data request mimeType
  exact scan_promotes (show u.doc row.id = some row from hself) rfl hobj hvalid hnone hscan

def liveMemo : Document :=
  { UploadService.received 0 "memo.pdf" [37] plainRequest "application/pdf" with
    status := .live, checksum := some "e3b0", quarantinePath := none,
    rawPath := some (.ofContent "e3b0" ".pdf") }

/-- The memo with a re-upload that was refused and a version that was replaced. -/
def sharedContent : World where
  now := 0
  documents := ⟨[liveMemo, { liveMemo with id := 1, status := .duplicate, rawPath := none },
    { liveMemo with id := 2, status := .superseded }], by decide, by decide⟩
  chunks := []
  jobs := []
  objects _ _ := none
  extracted _ := none
  normalized _ := none
  audit := []
  nextId := 0

theorem shared_content_freed :
    (sharedContent.eraseDocument liveMemo).documents.getByChecksum "e3b0" = none ∧
      ∀ r ∈ (sharedContent.eraseDocument liveMemo).documents.rows, r.checksum = some "e3b0" →
        r.status ≠ .duplicate := by
  have hfreed := erase_frees_content plainServices
    (show Bears sharedContent liveMemo "e3b0" from ⟨rfl, rfl, rfl, rfl⟩) rfl
  exact ⟨hfreed.1, hfreed.2.1⟩

end KnowledgeBase
