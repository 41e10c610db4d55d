import KnowledgeBase.Erasure

/-! An erasure whose storage fails. The claims on the jobs are taken back with the
transaction, unless the audit write in between has committed them; objects that are gone
stay gone. -/

namespace KnowledgeBase

/-- The objects of a document, in the order they are removed. -/
inductive EraseSlot where
  | raw | quarantine | extracted | normalized
  deriving DecidableEq

/-- Whether the audit write goes through, and which objects the storage removes. -/
structure EraseLuck where
  auditWritten : Bool
  deletes : EraseSlot → Bool

inductive EraseOutcome where
  | documentBusy
  | storageEraseFailed (slot : EraseSlot)
  | databaseError
  | erased
  deriving DecidableEq

namespace World

def present (w : World) (doc : Document) : EraseSlot → Bool
  | .raw => doc.rawPath.any fun k => (w.objects .raw k).isSome
  | .quarantine => doc.quarantinePath.any fun k => (w.objects .quarantine k).isSome
  | .extracted => (w.extracted (artifactKeyFor doc.id)).isSome
  | .normalized => (w.normalized (artifactKeyFor doc.id)).isSome

def removeSlot (w : World) (doc : Document) : EraseSlot → World
  | .raw => w.removeObject .raw doc.rawPath
  | .quarantine => w.removeObject .quarantine doc.quarantinePath
  | .extracted =>
    { w with extracted := Function.update w.extracted (artifactKeyFor doc.id) none }
  | .normalized =>
    { w with normalized := Function.update w.normalized (artifactKeyFor doc.id) none }

def eraseSlots : List EraseSlot := [.raw, .quarantine, .extracted, .normalized]

/-- The loop over the objects, up to the one that is not removed. -/
def removeObjects (luck : EraseLuck) (doc : Document) :
    List EraseSlot → World → Option EraseSlot × World
  | [], w => (none, w)
  | slot :: slots, w =>
    if w.present doc slot then
      if luck.deletes slot then removeObjects luck doc slots (w.removeSlot doc slot)
      else (some slot, w)
    else removeObjects luck doc slots w

/-- `erase_document` as `delete_document` calls it. -/
def eraseAttempt (luck : EraseLuck) (w : World) (doc : Document) : EraseOutcome × World :=
  if w.busy doc.id then (.documentBusy, w)
  else
    let claimed := { w with jobs := w.jobs.map (w.cancelJob doc.id) }
    -- the audit write commits its session, and with it the claims; where it fails they are lost
    let w := if luck.auditWritten then claimed.auditEvent doc.id .documentDeleted true else w
    match removeObjects luck doc eraseSlots w with
    | (some slot, w) => (.storageEraseFailed slot, w)
    | (none, w) =>
      if luck.auditWritten then
        let w := { w with chunks := w.chunks.filter (fun c => c.documentId ≠ doc.id) }
        let w := w.purge doc.id
        match doc.checksum with
        | none => (.erased, w)
        | some sha256 => (.erased, w.purgeDuplicatesOf sha256)
      else (.databaseError, w)

/-- The row, the passages, the states of the jobs and the objects are as they were. -/
structure Untouched (w w' : World) : Prop where
  documents : w'.documents = w.documents
  chunks : w'.chunks = w.chunks
  jobs : w'.jobs.map (fun j => (j.jobId, j.status)) = w.jobs.map fun j => (j.jobId, j.status)
  objects : w'.objects = w.objects
  extracted : w'.extracted = w.extracted
  normalized : w'.normalized = w.normalized

section Slots

variable {luck : EraseLuck} {doc : Document} {w w' : World} {slot : EraseSlot}
  {slots : List EraseSlot}

theorem present_congr (ho : w'.objects = w.objects) (he : w'.extracted = w.extracted)
    (hn : w'.normalized = w.normalized) (slot : EraseSlot) :
    w'.present doc slot = w.present doc slot := by
  cases slot <;> simp [present, ho, he, hn]

theorem removeSlot_rows (w : World) (doc : Document) (slot : EraseSlot) :
    (w.removeSlot doc slot).documents = w.documents ∧ (w.removeSlot doc slot).chunks = w.chunks ∧
      (w.removeSlot doc slot).jobs = w.jobs := by
  cases slot with
  | raw => rw [removeSlot, removeObject_eq]; exact ⟨rfl, rfl, rfl⟩
  | quarantine => rw [removeSlot, removeObject_eq]; exact ⟨rfl, rfl, rfl⟩
  | extracted => exact ⟨rfl, rfl, rfl⟩
  | normalized => exact ⟨rfl, rfl, rfl⟩

/-- The object is gone, and none has come. -/
theorem present_removeSlot (slot' : EraseSlot) :
    (w.removeSlot doc slot).present doc slot' = (w.present doc slot' && slot' ≠ slot) := by
  cases slot <;> cases slot' <;>
    cases hr : doc.rawPath <;> cases hq : doc.quarantinePath <;>
    simp [present, removeSlot, removeObject, setObject, hr, hq]

theorem removeSlot_absent (h : w.present doc slot = false) : w.removeSlot doc slot = w := by
  cases slot with
  | raw =>
    cases hr : doc.rawPath with
    | none => simp [removeSlot, removeObject, hr]
    | some k =>
      have hnone : w.objects .raw k = none := by simpa [present, hr] using h
      simp [removeSlot, removeObject, setObject, hr, ← hnone]
  | quarantine =>
    cases hq : doc.quarantinePath with
    | none => simp [removeSlot, removeObject, hq]
    | some k =>
      have hnone : w.objects .quarantine k = none := by simpa [present, hq] using h
      simp [removeSlot, removeObject, setObject, hq, ← hnone]
  | extracted =>
    have hnone : w.extracted (artifactKeyFor doc.id) = none := by simpa [present] using h
    simp [removeSlot, ← hnone]
  | normalized =>
    have hnone : w.normalized (artifactKeyFor doc.id) = none := by simpa [present] using h
    simp [removeSlot, ← hnone]

theorem removeObjects_rows (luck : EraseLuck) (doc : Document) (slots : List EraseSlot)
    (w : World) : (removeObjects luck doc slots w).2.documents = w.documents ∧
      (removeObjects luck doc slots w).2.chunks = w.chunks ∧
      (removeObjects luck doc slots w).2.jobs = w.jobs := by
  induction slots generalizing w with
  | nil => exact ⟨rfl, rfl, rfl⟩
  | cons slot slots ih =>
    rw [removeObjects]
    split
    · split
      · obtain ⟨hd, hc, hj⟩ := ih (w.removeSlot doc slot)
        obtain ⟨hd', hc', hj'⟩ := removeSlot_rows w doc slot
        exact ⟨hd.trans hd', hc.trans hc', hj.trans hj'⟩
      · exact ⟨rfl, rfl, rfl⟩
    · exact ih w

/-- The loop brings no object back. -/
theorem present_of_removeObjects (h : (removeObjects luck doc slots w).2.present doc slot = true) :
    w.present doc slot = true := by
  induction slots generalizing w with
  | nil => exact h
  | cons s slots ih =>
    rw [removeObjects] at h
    split at h
    · split at h
      · have hleft := ih h
        rw [present_removeSlot, Bool.and_eq_true] at hleft
        exact hleft.1
      · exact h
    · exact ih h

/-- It stops at the first object, if that one stays. -/
theorem removeObjects_first (hfirst : slots.find? (w.present doc) = some slot)
    (hstays : luck.deletes slot = false) : removeObjects luck doc slots w = (some slot, w) := by
  induction slots with
  | nil => cases hfirst
  | cons s slots ih =>
    rw [List.find?_cons] at hfirst
    rw [removeObjects]
    split at hfirst
    · rename_i hs
      obtain rfl := Option.some.inj hfirst
      rw [if_pos hs, if_neg (by rw [hstays]; exact Bool.false_ne_true)]
    · rename_i hs
      rw [if_neg (by rw [hs]; exact Bool.false_ne_true), ih hfirst]

/-- Otherwise the first object is gone, however the loop ends. -/
theorem removeObjects_gone (hfirst : slots.find? (w.present doc) = some slot)
    (hgoes : luck.deletes slot = true) :
    (removeObjects luck doc slots w).2.present doc slot = false := by
  induction slots with
  | nil => cases hfirst
  | cons s slots ih =>
    rw [List.find?_cons] at hfirst
    rw [removeObjects]
    split at hfirst
    · rename_i hs
      obtain rfl := Option.some.inj hfirst
      rw [if_pos hs, if_pos hgoes, Bool.eq_false_iff]
      intro h
      have hleft := present_of_removeObjects h
      rw [present_removeSlot] at hleft
      simp at hleft
    · rename_i hs
      rw [if_neg (by rw [hs]; exact Bool.false_ne_true)]
      exact ih hfirst

theorem removeObjects_none (h : slots.find? (w.present doc) = none) :
    removeObjects luck doc slots w = (none, w) := by
  induction slots with
  | nil => rfl
  | cons s slots ih =>
    rw [List.find?_cons] at h
    rw [removeObjects]
    split at h
    · cases h
    · rename_i hs
      rw [if_neg (by rw [hs]; exact Bool.false_ne_true), ih h]

/-- With a storage that removes everything the loop is all the removals. -/
theorem removeObjects_all (hall : ∀ slot, luck.deletes slot = true) (slots : List EraseSlot)
    (w : World) : removeObjects luck doc slots w =
      (none, slots.foldl (fun w slot => w.removeSlot doc slot) w) := by
  induction slots generalizing w with
  | nil => rfl
  | cons s slots ih =>
    rw [removeObjects, List.foldl_cons]
    split
    · rw [if_pos (hall s), ih]
    · rename_i hs
      rw [ih, removeSlot_absent (Bool.eq_false_iff.mpr hs)]

end Slots

section Attempt

variable {luck : EraseLuck} {doc : Document} {w w' : World} {slot : EraseSlot}

/-- When nothing fails, the attempt is the erasure. -/
theorem eraseAttempt_healthy (haudit : luck.auditWritten = true)
    (hall : ∀ slot, luck.deletes slot = true) (hfree : w.busy doc.id = false) :
    eraseAttempt luck w doc = (.erased, w.eraseDocument doc) := by
  have herase : w.eraseDocument doc = if w.busy doc.id then w else _ := rfl
  rw [herase, eraseAttempt, if_neg (by rw [hfree]; exact Bool.false_ne_true),
    if_neg (by rw [hfree]; exact Bool.false_ne_true)]
  simp only [haudit, if_true, removeObjects_all hall]
  cases doc.checksum <;> rfl

/-- The first object the document has is the one that stays. -/
def FirstStays (luck : EraseLuck) (w : World) (doc : Document) : Prop :=
  ∀ slot, eraseSlots.find? (w.present doc) = some slot → luck.deletes slot = false

def HasPending (w : World) (id : DocumentId) : Prop :=
  ∃ j ∈ w.jobs, j.documentId = id ∧ j.status = .pending

theorem jobs_cancelled_iff : (w.jobs.map (w.cancelJob doc.id)).map
    (fun j => (j.jobId, j.status)) = w.jobs.map (fun j => (j.jobId, j.status)) ↔
      ¬ HasPending w doc.id := by
  have hjob : ∀ j : Job, ((w.cancelJob doc.id j).jobId, (w.cancelJob doc.id j).status) =
      (j.jobId, j.status) ↔ ¬ (j.documentId = doc.id ∧ j.status = .pending) := by
    intro j
    unfold cancelJob
    split
    · rename_i hp
      simp [hp.1, hp.2]
    · rename_i hp
      simp [hp]
  rw [List.map_map, List.map_inj_left]
  constructor
  · rintro h ⟨j, hj, hp⟩
    exact (hjob j).mp (h j hj) hp
  · intro h j hj
    exact (hjob j).mpr fun hp => h ⟨j, hj, hp⟩

/-- The state in which the loop begins. -/
theorem eraseAttempt_failed (h : eraseAttempt luck w doc = (.storageEraseFailed slot, w')) :
    ∃ v : World, removeObjects luck doc eraseSlots v = (some slot, w') ∧
      v.documents = w.documents ∧ v.chunks = w.chunks ∧ v.objects = w.objects ∧
      v.extracted = w.extracted ∧ v.normalized = w.normalized ∧
      v.jobs = if luck.auditWritten then w.jobs.map (w.cancelJob doc.id) else w.jobs := by
  unfold eraseAttempt at h
  split at h
  · cases (Prod.mk.inj h).1
  · dsimp only at h
    split at h
    · rename_i s u hloop
      obtain ⟨hs, rfl⟩ := Prod.mk.inj h
      obtain rfl := EraseOutcome.storageEraseFailed.inj hs
      refine ⟨_, hloop, ?_⟩
      obtain ⟨a, ha⟩ := auditEvent_eq { w with jobs := w.jobs.map (w.cancelJob doc.id) } doc.id
        .documentDeleted true
      split
      · rw [ha]
        exact ⟨rfl, rfl, rfl, rfl, rfl, rfl⟩
      · exact ⟨rfl, rfl, rfl, rfl, rfl, rfl⟩
    · split at h
      · split at h <;> cases (Prod.mk.inj h).1
      · cases (Prod.mk.inj h).1

/-- A delete that fails changes nothing exactly when nothing came before the failure: no
claim was committed, and no other object was there to go first. -/
theorem failed_erase_untouched_iff (h : eraseAttempt luck w doc = (.storageEraseFailed slot, w')) :
    Untouched w w' ↔
      (luck.auditWritten = true → ¬ HasPending w doc.id) ∧ FirstStays luck w doc := by
  obtain ⟨v, hloop, hd, hc, ho, he, hn, hj⟩ := eraseAttempt_failed h
  obtain ⟨hd', hc', hj'⟩ := removeObjects_rows luck doc eraseSlots v
  rw [hloop] at hd' hc' hj'
  have hpresent : v.present doc = w.present doc := funext fun s => present_congr ho he hn s
  have hjobs : w'.jobs.map (fun j => (j.jobId, j.status)) =
      w.jobs.map (fun j => (j.jobId, j.status)) ↔
        (luck.auditWritten = true → ¬ HasPending w doc.id) := by
    rw [hj', hj]
    by_cases ha : luck.auditWritten = true
    · simp only [ha, if_true, jobs_cancelled_iff, forall_const]
    · simp [ha]
  constructor
  · intro hu
    refine ⟨hjobs.mp hu.jobs, fun s hs => ?_⟩
    by_contra hgoes
    have hfirst : eraseSlots.find? (v.present doc) = some s := hpresent ▸ hs
    have hgone := removeObjects_gone hfirst (Bool.not_eq_false _ ▸ hgoes)
    rw [hloop, present_congr hu.objects hu.extracted hu.normalized] at hgone
    have hthere := List.find?_some hs
    rw [hgone] at hthere
    cases hthere
  · rintro ⟨hpend, hfirst⟩
    have hsame : w' = v := by
      cases hf : eraseSlots.find? (v.present doc) with
      | none =>
        rw [removeObjects_none hf] at hloop
        cases (Prod.mk.inj hloop).1
      | some s =>
        rw [removeObjects_first hf (hfirst s (hpresent ▸ hf))] at hloop
        exact (Prod.mk.inj hloop).2.symm
    exact ⟨hsame ▸ hd, hsame ▸ hc, hjobs.mpr hpend, hsame ▸ ho, hsame ▸ he, hsame ▸ hn⟩

end Attempt

/-- A document that has been promoted and waits for its text to be read. -/
def storedDocument : Document :=
  { UploadService.received 0 "memo.pdf" [37] plainRequest "application/pdf" with
    status := .validated, checksum := some "e3b0", quarantinePath := none,
    rawPath := some (.ofContent "e3b0" "pdf") }

def storedWorld (jobs : Jobs) : World where
  now := 0
  documents := ⟨[storedDocument], by decide, by decide⟩
  chunks := []
  jobs := jobs
  objects b k := if b = .raw ∧ k = .ofContent "e3b0" "pdf" then some [37] else none
  extracted _ := none
  normalized _ := none
  audit := []
  nextId := 1

/-- The storage removes nothing. -/
def deadStorage : EraseLuck := { auditWritten := true, deletes := fun _ => false }

theorem failed_erase_of_idle_document : Untouched (storedWorld [])
    (eraseAttempt deadStorage (storedWorld []) storedDocument).2 := by
  have hfail : (eraseAttempt deadStorage (storedWorld []) storedDocument).1 =
      .storageEraseFailed .raw := by decide +kernel
  refine (failed_erase_untouched_iff (Prod.ext hfail rfl)).mpr ⟨?_, fun _ _ => rfl⟩
  rintro - ⟨j, hj, -⟩
  cases hj

/-- The job that waited has failed, though nothing was deleted. -/
theorem failed_erase_fails_job : ¬ ∀ (luck : EraseLuck) (w : World) (doc : Document)
    (slot : EraseSlot) (w' : World), w.doc doc.id = some doc →
    eraseAttempt luck w doc = (.storageEraseFailed slot, w') → Untouched w w' := by
  intro h
  let w : World := storedWorld [newJob 0 0 .extract 0]
  have hfail : (eraseAttempt deadStorage w storedDocument).1 = .storageEraseFailed .raw := by
    decide +kernel
  have hjobs := (h deadStorage w storedDocument .raw (eraseAttempt deadStorage w storedDocument).2
    rfl (Prod.ext hfail rfl)).jobs
  have hfailed : (eraseAttempt deadStorage w storedDocument).2.jobs.map
      (fun j => (j.jobId, j.status)) = [(0, .failed)] := by decide +kernel
  rw [hfailed] at hjobs
  cases hjobs

end World

end KnowledgeBase
