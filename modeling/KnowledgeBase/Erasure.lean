import KnowledgeBase.StageRows

/-! The delete of the app: everything a document consists of goes, and the row stays as a
tombstone. The storage removes what it is asked to. -/

namespace KnowledgeBase

namespace Document

/-- The tombstone. -/
def purged (d : Document) (now : Nat) : Document :=
  { d with
    purgedAt := some now, deletedAt := d.deletedAt.or (some now), checksum := none,
    rawPath := none, quarantinePath := none }

end Document

namespace World

def purge (w : World) (id : DocumentId) : World :=
  match w.doc id with
  | none => w
  | some d =>
    if d.purgedAt ≠ none then w
    else
      match w.documents.modify id (fun r => r.purged w.now) with
      | none => w
      | some t => { w with documents := t }

/-- The refused re-uploads of a file that has been erased. -/
def purgeDuplicatesOf (w : World) (sha256 : Sha256) : World :=
  let ids := (w.documents.rows.filter fun r =>
    r.checksum = some sha256 && r.status = .duplicate).map Document.id
  ids.foldl (fun w id =>
    match w.documents.modify id (fun r => { r.purged w.now with rawPath := r.rawPath }) with
    | none => w
    | some t => { w with documents := t }) w

def cancelJob (w : World) (id : DocumentId) (j : Job) : Job :=
  if j.documentId = id ∧ j.status = .pending then
    { j with
      status := .failed, finishedAt := some w.now, errorMessage := some "document deleted" }
  else j

def removeObject (w : World) (b : Bucket) (path : Option ObjectKey) : World :=
  match path with
  | none => w
  | some k => w.setObject b k none

/-- Nothing happens to a document that a worker is processing. -/
def eraseDocument (w : World) (doc : Document) : World :=
  if w.jobs.any (fun j => j.documentId = doc.id && j.status = .running) then w
  else
    let w := { w with jobs := w.jobs.map (w.cancelJob doc.id) }
    let w := w.auditEvent doc.id .documentDeleted true
    let w := (w.removeObject .raw doc.rawPath).removeObject .quarantine doc.quarantinePath
    let w := { w with
      extracted := Function.update w.extracted (artifactKeyFor doc.id) none
      normalized := Function.update w.normalized (artifactKeyFor doc.id) none
      chunks := w.chunks.filter (fun c => c.documentId ≠ doc.id) }
    let w := w.purge doc.id
    match doc.checksum with
    | none => w
    | some sha256 => w.purgeDuplicatesOf sha256

variable (w : World)

theorem purge_eq (id : DocumentId) : ∃ t, w.purge id = { w with documents := t } := by
  unfold purge
  split
  · exact ⟨w.documents, rfl⟩
  · split
    · exact ⟨w.documents, rfl⟩
    · split
      · exact ⟨w.documents, rfl⟩
      · exact ⟨_, rfl⟩

theorem purgeDuplicatesOf_eq (sha256 : Sha256) :
    ∃ t, w.purgeDuplicatesOf sha256 = { w with documents := t } := by
  unfold purgeDuplicatesOf
  generalize List.map Document.id _ = ids
  dsimp only
  induction ids generalizing w with
  | nil => exact ⟨w.documents, rfl⟩
  | cons d ids ih =>
    rw [List.foldl_cons]
    cases w.documents.modify d _ with
    | none => exact ih w
    | some t => exact ih { w with documents := t }

/-- The rows after a purge depend on the rows and the time alone. -/
theorem purge_documents {u : World} (hd : u.documents = w.documents) (hn : u.now = w.now)
    (id : DocumentId) : (u.purge id).documents = (w.purge id).documents := by
  simp only [purge, World.doc, hd, hn]
  split
  · exact hd
  · split
    · exact hd
    · split
      · exact hd
      · rfl

theorem purgeDuplicatesOf_documents {u : World} (hd : u.documents = w.documents)
    (hn : u.now = w.now) (sha256 : Sha256) :
    (u.purgeDuplicatesOf sha256).documents = (w.purgeDuplicatesOf sha256).documents := by
  unfold purgeDuplicatesOf
  rw [hd]
  generalize List.map Document.id _ = ids
  dsimp only
  induction ids generalizing u w with
  | nil => exact hd
  | cons d ids ih =>
    rw [List.foldl_cons, List.foldl_cons]
    refine ih _ ?_ ?_
    · rw [hd, hn]
      split
      · exact hd
      · rfl
    · rw [hd, hn]
      split
      · exact hn
      · rfl

/-- The objects without the one at a path, if there is a path. -/
def dropObject (objects : Bucket → ObjectKey → Option Bytes) (b : Bucket) :
    Option ObjectKey → Bucket → ObjectKey → Option Bytes
  | none => objects
  | some k => Function.update objects b (Function.update (objects b) k none)

theorem removeObject_eq (b : Bucket) (path : Option ObjectKey) :
    w.removeObject b path = { w with objects := dropObject w.objects b path } := by
  cases path <;> rfl

/-- A worker holds a job of the document. -/
def busy (id : DocumentId) : Bool :=
  w.jobs.any fun j => j.documentId = id && j.status = .running

/-- The rows after the objects are gone. -/
def tombstoned (doc : Document) : Documents :=
  match doc.checksum with
  | none => (w.purge doc.id).documents
  | some sha256 => ((w.purge doc.id).purgeDuplicatesOf sha256).documents

/-- Everything an erasure does. -/
theorem eraseDocument_eq {doc : Document} (h : w.busy doc.id = false) :
    ∃ a, w.eraseDocument doc = { w with
      documents := w.tombstoned doc
      audit := a
      jobs := w.jobs.map (w.cancelJob doc.id)
      objects := dropObject (dropObject w.objects .raw doc.rawPath) .quarantine doc.quarantinePath
      extracted := Function.update w.extracted (artifactKeyFor doc.id) none
      normalized := Function.update w.normalized (artifactKeyFor doc.id) none
      chunks := w.chunks.filter fun c => c.documentId ≠ doc.id } := by
  obtain ⟨a, ha⟩ := auditEvent_eq { w with jobs := w.jobs.map (w.cancelJob doc.id) } doc.id
    .documentDeleted true
  refine ⟨a, ?_⟩
  unfold eraseDocument
  rw [if_neg (by rw [← busy, h]; exact Bool.false_ne_true)]
  dsimp only
  rw [ha, removeObject_eq, removeObject_eq]
  dsimp only
  generalize hv : ({ w with
      audit := a
      jobs := w.jobs.map (w.cancelJob doc.id)
      objects := dropObject (dropObject w.objects .raw doc.rawPath) .quarantine doc.quarantinePath
      extracted := Function.update w.extracted (artifactKeyFor doc.id) none
      normalized := Function.update w.normalized (artifactKeyFor doc.id) none
      chunks := w.chunks.filter fun c => c.documentId ≠ doc.id } : World) = v
  have hd : v.documents = w.documents := by rw [← hv]
  have hn : v.now = w.now := by rw [← hv]
  have hrows := purge_documents w hd hn doc.id
  have hnow : ∀ u : World, (u.purge doc.id).now = u.now := by
    intro u
    obtain ⟨t, ht⟩ := u.purge_eq doc.id
    rw [ht]
  have htomb : v.tombstoned doc = w.tombstoned doc := by
    unfold tombstoned
    split
    · exact hrows
    · exact purgeDuplicatesOf_documents _ hrows (by rw [hnow, hnow, hn]) _
  rw [← htomb]
  unfold tombstoned
  split
  · obtain ⟨t, ht⟩ := v.purge_eq doc.id
    rw [ht, ← hv]
  · obtain ⟨t, ht⟩ := v.purge_eq doc.id
    rename_i sha256 _
    obtain ⟨t', ht'⟩ := (v.purge doc.id).purgeDuplicatesOf_eq sha256
    rw [ht', ht, ← hv]

/-- A write that takes the hash away is never refused. -/
theorem modify_cleared {f : Document → Document} (hf : ∀ r, (f r).checksum = none)
    (t : Documents) (id : DocumentId) : ∃ t', t.modify id f = some t' := by
  have hmem : ∀ r ∈ Documents.rewrite id f t.rows, r.checksum ≠ none → r ∈ t.rows := by
    intro r hr hne
    obtain ⟨q, hq, rfl⟩ := List.mem_map.mp hr
    by_cases hid : q.id = id
    · simp [hid, hf] at hne
    · simp [hid, hq]
  refine ⟨_, dif_pos fun a ha b hb haa hba hne hab => ?_⟩
  exact t.unique a (hmem a ha hne) b (hmem b hb fun hn => hne (hab.trans hn)) haa hba hne hab

theorem purge_doc (id k : DocumentId) : (w.purge id).doc k =
    (w.doc k).map fun r => if k = id ∧ r.purgedAt = none then r.purged w.now else r := by
  unfold purge
  cases hd : w.doc id with
  | none =>
    by_cases hk : k = id
    · simp [hk, hd]
    · simp [hk]
  | some d =>
    dsimp only
    split
    · rename_i hp
      by_cases hk : k = id
      · rw [hk, hd]
        simp [hp]
      · simp [hk]
    · rename_i hp
      obtain ⟨t, ht⟩ := modify_cleared (f := fun r => r.purged w.now) (fun _ => rfl) w.documents id
      rw [ht]
      by_cases hk : k = id
      · subst hk
        have hrow := Documents.modify_get_self ht hd
        rw [World.doc, hrow, hd]
        simp [not_not.mp hp, Document.purged, Documents.get_id hd]
      · have hother := Documents.modify_get_other ht hk
        rw [World.doc, hother]
        simp [hk, World.doc]

theorem purgeDuplicatesOf_doc (sha256 : Sha256) (k : DocumentId) :
    (w.purgeDuplicatesOf sha256).doc k = (w.doc k).map fun r =>
      if r.checksum = some sha256 ∧ r.status = .duplicate then
        { r.purged w.now with rawPath := r.rawPath }
      else r := by
  have hfold : ∀ (ids : List DocumentId) (w : World), ids.Nodup →
      (ids.foldl (fun w id =>
        match w.documents.modify id (fun r => { r.purged w.now with rawPath := r.rawPath }) with
        | none => w
        | some t => { w with documents := t }) w).doc k =
      (w.doc k).map fun r => if k ∈ ids then { r.purged w.now with rawPath := r.rawPath } else r := by
    intro ids
    induction ids with
    | nil =>
      intro w _
      simp
    | cons d ids ih =>
      intro w hnd
      obtain ⟨hd, hrest⟩ := List.nodup_cons.mp hnd
      obtain ⟨t, ht⟩ := modify_cleared
        (f := fun r => { r.purged w.now with rawPath := r.rawPath }) (fun _ => rfl) w.documents d
      rw [List.foldl_cons, ht, ih _ hrest]
      have hdoc : ({ w with documents := t } : World).doc k = (w.doc k).map fun r =>
          if r.id = d then { ({ r.purged w.now with rawPath := r.rawPath } : Document) with
            id := r.id } else r := Documents.modify_get ht k
      rw [hdoc, Option.map_map]
      cases hr : w.doc k with
      | none => rfl
      | some r =>
        have hid : r.id = k := Documents.get_id hr
        by_cases hk : k = d
        · subst hk
          simp [hd, hid, Document.purged]
        · simp [hk, hid]
  have hids : ((w.documents.rows.filter fun r =>
      r.checksum = some sha256 && r.status = .duplicate).map Document.id).Nodup :=
    w.documents.ids.sublist (List.filter_sublist.map _)
  unfold purgeDuplicatesOf
  rw [hfold _ w hids]
  cases hr : w.doc k with
  | none => rfl
  | some r =>
    have hid : r.id = k := Documents.get_id hr
    have hmem : k ∈ (w.documents.rows.filter fun r =>
        r.checksum = some sha256 && r.status = .duplicate).map Document.id ↔
          r.checksum = some sha256 ∧ r.status = .duplicate := by
      simp only [List.mem_map, List.mem_filter, Bool.and_eq_true, decide_eq_true_eq]
      constructor
      · rintro ⟨q, ⟨hq, hp⟩, hqk⟩
        have hq' := Documents.get_of_mem hq
        rw [hqk] at hq'
        obtain rfl := Option.some.inj (hr.symm.trans hq')
        exact hp
      · exact fun hp => ⟨r, ⟨Documents.mem_of_get hr, hp⟩, hid⟩
    simp only [Option.map_some, hmem]

/-- What an erasure makes of each row. -/
theorem tombstoned_get (doc : Document) (k : DocumentId) :
    (w.tombstoned doc).get k = (w.doc k).map fun r =>
      if k = doc.id ∧ r.purgedAt = none then r.purged w.now
      else if doc.checksum ≠ none ∧ r.checksum = doc.checksum ∧ r.status = .duplicate then
        { r.purged w.now with rawPath := r.rawPath }
      else r := by
  have hnow : (w.purge doc.id).now = w.now := by
    obtain ⟨t, ht⟩ := w.purge_eq doc.id
    rw [ht]
  unfold tombstoned
  split
  · rename_i hc
    have hp := w.purge_doc doc.id k
    rw [World.doc] at hp
    rw [hp]
    simp [hc]
  · rename_i sha256 hc
    have hp := (w.purge doc.id).purgeDuplicatesOf_doc sha256 k
    rw [World.doc] at hp
    rw [hp, purge_doc, Option.map_map, hnow]
    cases hr : w.doc k with
    | none => rfl
    | some r =>
      by_cases hk : k = doc.id ∧ r.purgedAt = none
      · simp [hk, Document.purged]
      · simp [hk, hc]

end World

/-- A row before and after documents have been erased: kept, or made a tombstone. -/
def Erased (r r' : Document) : Prop :=
  r' = r ∨ r'.id = r.id ∧ r'.status = r.status ∧ r'.classification = r.classification ∧
    r'.deletedAt ≠ none ∧ r'.purgedAt ≠ none

theorem Erased.refl (r : Document) : Erased r r := .inl rfl

theorem Erased.trans {a b c : Document} (h : Erased a b) (h' : Erased b c) : Erased a c := by
  rcases h with rfl | ⟨hid, hs, hc, hd, hp⟩
  · exact h'
  · rcases h' with rfl | ⟨hid', hs', hc', hd', hp'⟩
    · exact .inr ⟨hid, hs, hc, hd, hp⟩
    · exact .inr ⟨hid'.trans hid, hs'.trans hs, hc'.trans hc, hd', hp'⟩

section Rows

variable {w w' : World} {id : DocumentId}

/-- Making a row a tombstone, if the table takes it. -/
theorem erased_of_modify {f : Document → Document} (hf : ∀ r, Erased r (f r))
    {t : Documents} (ht : w.documents.modify id f = some t) :
    RowsRelate Erased w { w with documents := t } := by
  intro j
  have hget : ({ w with documents := t } : World).doc j =
      (w.doc j).map fun r => if r.id = id then { f r with id := r.id } else r :=
    Documents.modify_get ht j
  rw [hget]
  refine ⟨fun hn => by rw [hn]; rfl, fun r hr => ⟨_, by rw [hr]; rfl, ?_⟩⟩
  dsimp only
  split
  · rcases hf r with he | ⟨-, hs, hc, hd, hp⟩
    · left
      rw [he]
    · exact .inr ⟨rfl, hs, hc, hd, hp⟩
  · exact .refl r

theorem purged_erased (d : Document) (now : Nat) : Erased d (d.purged now) := by
  refine .inr ⟨rfl, rfl, rfl, ?_, Option.some_ne_none now⟩
  cases hd : d.deletedAt <;> simp [Document.purged, hd]

theorem rows_of_documents (h : w'.documents = w.documents) : RowsRelate Erased w w' := by
  intro j
  rw [World.doc, World.doc, h]
  exact ⟨fun hn => hn, fun r hr => ⟨r, hr, .refl r⟩⟩

theorem purge_erased (w : World) (id : DocumentId) : RowsRelate Erased w (w.purge id) := by
  unfold World.purge
  split
  · exact rows_of_documents rfl
  · split
    · exact rows_of_documents rfl
    · split
      · exact rows_of_documents rfl
      · rename_i t ht
        exact erased_of_modify (fun r => purged_erased r w.now) ht

theorem purgeDuplicatesOf_erased (w : World) (sha256 : Sha256) :
    RowsRelate Erased w (w.purgeDuplicatesOf sha256) := by
  unfold World.purgeDuplicatesOf
  generalize List.map Document.id _ = ids
  dsimp only
  induction ids generalizing w with
  | nil => exact rows_of_documents rfl
  | cons d ids ih =>
    rw [List.foldl_cons]
    refine RowsRelate.trans (fun _ _ _ => Erased.trans) ?_ (ih _)
    split
    · exact rows_of_documents rfl
    · rename_i t ht
      refine erased_of_modify (fun r => ?_) ht
      rcases purged_erased r w.now with he | ⟨hid, hs, hc, hd, hp⟩
      · exact .inr ⟨rfl, rfl, rfl, by cases h : r.deletedAt <;> simp [Document.purged, h],
          Option.some_ne_none _⟩
      · exact .inr ⟨hid, hs, hc, hd, hp⟩

/-- Erasing one document makes tombstones and nothing else of the rows. -/
theorem eraseDocument_erased (w : World) (doc : Document) :
    RowsRelate Erased w (w.eraseDocument doc) := by
  have hobject : ∀ (u : World) (b : Bucket) (path : Option ObjectKey),
      (u.removeObject b path).documents = u.documents := by
    intro u b path
    cases path <;> rfl
  unfold World.eraseDocument
  split
  · exact rows_of_documents rfl
  · dsimp only
    generalize hu : World.auditEvent _ doc.id .documentDeleted true = u
    have hud : u.documents = w.documents := by
      rw [← hu]
      obtain ⟨a, ha⟩ := auditEvent_eq { w with jobs := w.jobs.map (w.cancelJob doc.id) } doc.id
        .documentDeleted true
      rw [ha]
    have hpurge : ∀ v : World, v.documents = w.documents → RowsRelate Erased w (v.purge doc.id) :=
      fun v hv => (rows_of_documents hv).trans (fun _ _ _ => Erased.trans) (purge_erased v doc.id)
    have hsame : ((u.removeObject .raw doc.rawPath).removeObject .quarantine
        doc.quarantinePath).documents = w.documents := by
      rw [hobject, hobject, hud]
    split
    · exact hpurge _ hsame
    · refine RowsRelate.trans (fun _ _ _ => Erased.trans) (hpurge _ ?_)
        (purgeDuplicatesOf_erased _ _)
      exact hsame

end Rows

end KnowledgeBase
