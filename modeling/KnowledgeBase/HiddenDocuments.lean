import KnowledgeBase.DocumentsApi
import KnowledgeBase.StaleCopies
import KnowledgeBase.Unwinding

/-! What a caller of the endpoints can tell of the documents they may not view: nothing, whatever
they ask and in whatever order. -/

namespace KnowledgeBase

/-- All that the endpoints read of a document. -/
structure DocumentView where
  document : Document
  createdAt : Nat
  uploadedBy : Option Text
  records : List AuditRecord
  removed : Bool
  chunks : List Chunk
  busy : Bool
  raw : Option Bytes
  present : EraseSlot → Bool

namespace Api

variable {a b a' b' : Api} {v : User} {id : DocumentId} {d : Document} {m : Moment}

def viewOf (a : Api) (d : Document) : DocumentView where
  document := d
  createdAt := a.createdAt d.id
  uploadedBy := a.uploaderEmail d
  records := a.recordsOf d.id
  removed := a.removedFromDrive d.id
  chunks := a.world.chunks.filter (·.documentId = d.id)
  busy := a.world.busy d.id
  raw := d.rawPath.bind (a.world.objects .raw)
  present := a.world.present d

/-- The rows a person may see. -/
def seen (v : User) (a : Api) : List Document := a.world.documents.rows.filter (canSee v)

def view (v : User) (a : Api) : List DocumentView := (a.seen v).map a.viewOf

section Reading

theorem view_eq_iff : view v a = view v b ↔
    a.seen v = b.seen v ∧ ∀ d ∈ a.seen v, a.viewOf d = b.viewOf d := by
  constructor
  · intro h
    have hrows : a.seen v = b.seen v := by
      have hdocs := congrArg (List.map DocumentView.document) h
      have hid : ∀ c : Api, DocumentView.document ∘ c.viewOf = id := fun _ => rfl
      simpa only [view, List.map_map, hid, List.map_id] using hdocs
    refine ⟨hrows, ?_⟩
    rw [view, view, ← hrows] at h
    exact List.map_inj_left.mp h
  · rintro ⟨hrows, hview⟩
    rw [view, view, ← hrows]
    exact List.map_congr_left hview

theorem seen_nodup (a : Api) : ((a.seen v).map Document.id).Nodup :=
  a.world.documents.ids.sublist (List.filter_sublist.map _)

theorem docFor_eq_some : a.docFor v id = some d ↔ d ∈ a.seen v ∧ d.id = id := by
  have hget : a.doc id = some d ↔ d ∈ a.world.documents.rows ∧ d.id = id :=
    Table.lookup_eq_some_iff a.world.documents.ids
  simp only [docFor, Option.filter_eq_some_iff, hget, seen, List.mem_filter]
  tauto

theorem docFor_congr (h : view v a = view v b) (id : DocumentId) :
    a.docFor v id = b.docFor v id := by
  apply Option.ext
  intro d
  rw [docFor_eq_some, docFor_eq_some, (view_eq_iff.mp h).1]

theorem viewOf_congr (h : view v a = view v b) (hd : a.docFor v id = some d) :
    a.viewOf d = b.viewOf d :=
  (view_eq_iff.mp h).2 d (docFor_eq_some.mp hd).1

theorem withUploader_congr (h : a.viewOf d = b.viewOf d) : a.withUploader d = b.withUploader d := by
  simp only [viewOf, DocumentView.mk.injEq] at h
  simp only [withUploader, h.2.1, h.2.2.1]

theorem duplicateOf_congr (h : view v a = view v b) (hd : a.viewOf d = b.viewOf d) :
    a.duplicateOf v d = b.duplicateOf v d := by
  have hrecords : a.recordsOf d.id = b.recordsOf d.id := congrArg DocumentView.records hd
  have hcanonical : a.canonicalOf d.id = b.canonicalOf d.id := by
    simp only [canonicalOf, hrecords]
  have hdoc : (a.canonicalOf d.id).bind (a.docFor v) = (b.canonicalOf d.id).bind (b.docFor v) := by
    rw [hcanonical]
    congr 1
    funext id
    exact docFor_congr h id
  simp only [duplicateOf, ← hdoc]
  cases hc : (a.canonicalOf d.id).bind (a.docFor v) with
  | none => rfl
  | some c =>
    obtain ⟨id, -, hid⟩ := Option.bind_eq_some_iff.mp hc
    have hremoved : a.removedFromDrive c.id = b.removedFromDrive c.id :=
      congrArg DocumentView.removed (viewOf_congr h hid)
    simp only [hremoved]

theorem getDocumentStatus_congr (h : view v a = view v b) :
    a.getDocumentStatus v id = b.getDocumentStatus v id := by
  simp only [getDocumentStatus, ← docFor_congr h id]
  cases hd : a.docFor v id with
  | none => rfl
  | some d =>
    have hview := viewOf_congr h hd
    have hduplicate := duplicateOf_congr h hview
    simp only [viewOf, DocumentView.mk.injEq] at hview
    simp only [hduplicate, hview.2.1, hview.2.2.1, hview.2.2.2.1]

theorem downloadDocument_congr (h : view v a = view v b) :
    a.downloadDocument v id = b.downloadDocument v id := by
  simp only [downloadDocument, ← docFor_congr h id]
  cases hd : a.docFor v id with
  | none => rfl
  | some d =>
    have hraw : d.rawPath.bind (a.world.objects .raw) = d.rawPath.bind (b.world.objects .raw) :=
      congrArg DocumentView.raw (viewOf_congr h hd)
    cases hpath : d.rawPath with
    | none => simp only [hpath]
    | some key =>
      rw [hpath, Option.bind_some, Option.bind_some] at hraw
      simp only [hpath, hraw]

theorem getDocumentChunks_congr (h : view v a = view v b) (limit offset : Int) :
    a.getDocumentChunks v id limit offset = b.getDocumentChunks v id limit offset := by
  simp only [getDocumentChunks, ← docFor_congr h id]
  cases hd : a.docFor v id with
  | none => rfl
  | some d =>
    have hchunks : a.world.chunks.filter (·.documentId = d.id) =
        b.world.chunks.filter (·.documentId = d.id) :=
      congrArg DocumentView.chunks (viewOf_congr h hd)
    rw [(docFor_eq_some.mp hd).2] at hchunks
    simp only [World.chunksOf, hchunks]

/-- A list that is scoped to what the caller may see is drawn from it. -/
theorem filter_seen {p : Document → Bool} (hp : ∀ d, p d = true → canSee v d = true) :
    a.world.documents.rows.filter p = (a.seen v).filter p := by
  rw [seen, List.filter_filter]
  apply List.filter_congr
  intro d _
  cases hd : p d with
  | false => rfl
  | true => simp [hp d hd]

theorem rows_congr (h : view v a = view v b) {p : Document → Bool}
    (hp : ∀ d, p d = true → canSee v d = true) :
    a.world.documents.rows.filter p = b.world.documents.rows.filter p := by
  rw [filter_seen hp, filter_seen hp, (view_eq_iff.mp h).1]

theorem drawn_seen {p : Document → Bool} (hp : ∀ d, p d = true → canSee v d = true)
    {ds : List Document} (hds : ds.Subset (a.world.documents.rows.filter p)) :
    ∀ d ∈ ds, d ∈ a.seen v := by
  intro d hd
  have hmem := hds hd
  rw [filter_seen hp] at hmem
  exact (List.mem_filter.mp hmem).1

theorem canSee_of_mayChange (h : mayChange v d = true) : canSee v d = true := by
  have hown : d.ownerId = some v.userId ∨ v.role = .admin := by
    simp only [mayChange, isOwner, Bool.or_eq_true, Bool.and_eq_true, decide_eq_true_eq] at h
    exact h.imp_left And.right
  rcases hown with hown | hadmin
  · simp [canSee, canView, hown]
  · simp [canSee, canView, isAdmin, hadmin]

theorem offeredBack_seen (h : view v a = view v b) :
    offeredBack a.world.documents.rows (some v.userId) (isAdmin v.role) =
      offeredBack b.world.documents.rows (some v.userId) (isAdmin v.role) ∧
    ∀ ds : List Document, ds.Subset (offeredBack a.world.documents.rows (some v.userId)
      (isAdmin v.role)) → ∀ d ∈ ds, d ∈ a.seen v := by
  have hp : ∀ d : Document, (d.deletedAt ≠ none && d.purgedAt = none && d.status ≠ .superseded &&
      d.status ≠ .duplicate && (isAdmin v.role ||
        (some v.userId ≠ none && d.ownerId = some v.userId))) = true → canSee v d = true := by
    intro d hd
    apply canSee_of_mayChange
    simp only [Bool.and_eq_true, Bool.or_eq_true, decide_eq_true_eq, isAdmin] at hd
    simp only [mayChange, isOwner, Bool.or_eq_true, Bool.and_eq_true, decide_eq_true_eq]
    rcases hd.2 with hadmin | ⟨-, hown⟩
    · exact .inr hadmin
    · exact .inl ⟨by simp [hown], hown⟩
  exact ⟨rows_congr h hp, fun ds hds => drawn_seen hp hds⟩

theorem listed_seen (h : view v a = view v b) {p : Document → Bool} :
    (a.world.documents.rows.filter fun d =>
        p d && visibleDocumentsClause d (some v.userId) (isAdmin v.role)) =
      (b.world.documents.rows.filter fun d =>
        p d && visibleDocumentsClause d (some v.userId) (isAdmin v.role)) ∧
    ∀ ds : List Document, ds.Subset (a.world.documents.rows.filter fun d =>
        p d && visibleDocumentsClause d (some v.userId) (isAdmin v.role)) →
      ∀ d ∈ ds, d ∈ a.seen v := by
  have hp : ∀ d, (p d && visibleDocumentsClause d (some v.userId) (isAdmin v.role)) = true →
      canSee v d = true := by
    intro d hd
    rw [canSee, canView_eq]
    exact (Bool.and_eq_true _ _ ▸ hd).2
  exact ⟨rows_congr h hp, fun ds hds => drawn_seen hp hds⟩

theorem map_uploader_congr (h : view v a = view v b) {ds : List Document}
    (hds : ∀ d ∈ ds, d ∈ a.seen v) : ds.map a.withUploader = ds.map b.withUploader := by
  apply List.map_congr_left
  intro d hd
  exact withUploader_congr ((view_eq_iff.mp h).2 d (hds d hd))

theorem page_subset {rows : List Document} (limit offset : Nat) :
    (Ranking.page limit offset (m.sort rows)).Subset rows := by
  intro d hd
  exact (m.sort_perm rows).subset (List.mem_of_mem_drop (List.mem_of_mem_take hd))

theorem listDocuments_congr (h : view v a = view v b) (limit offset : Int) :
    a.listDocuments m v limit offset = b.listDocuments m v limit offset := by
  obtain ⟨hrows, hdrawn⟩ := listed_seen h (p := fun d => d.deletedAt = none)
  have hlisted : a.repository.listed (some v.userId) (isAdmin v.role) =
      b.repository.listed (some v.userId) (isAdmin v.role) := hrows
  simp only [listDocuments, PostgreSQLDocumentRepository.listPaginated, ← hlisted]
  congr 1
  exact map_uploader_congr h (hdrawn _ (page_subset _ _))

theorem searchDocuments_congr {u : Unicode} {e : TextSearch} {q : String} (h : view v a = view v b)
    (limit offset : Int) :
    a.searchDocuments u e m v q limit offset = b.searchDocuments u e m v q limit offset := by
  obtain ⟨hrows, hdrawn⟩ := listed_seen h (p := fun d =>
    d.deletedAt = none && e.matched (String.ofList (strip u q.toList)) d)
  have hhits : a.repository.hits e (some v.userId) (isAdmin v.role)
      (String.ofList (strip u q.toList)) = b.repository.hits e (some v.userId) (isAdmin v.role)
        (String.ofList (strip u q.toList)) := hrows
  simp only [searchDocuments, PostgreSQLDocumentRepository.search, ← hhits]
  split
  · rfl
  · congr 1
    exact map_uploader_congr h (hdrawn _ (page_subset _ _))

theorem listDeletedDocuments_congr (h : view v a = view v b) (limit : Int) :
    a.listDeletedDocuments m v limit = b.listDeletedDocuments m v limit := by
  obtain ⟨hrows, hdrawn⟩ := offeredBack_seen h
  have hoffered : offeredBack a.repository.documents.rows (some v.userId) (isAdmin v.role) =
      offeredBack b.repository.documents.rows (some v.userId) (isAdmin v.role) := hrows
  simp only [listDeletedDocuments, PostgreSQLDocumentRepository.listDeleted, ← hoffered]
  simp only [reduceCtorEq, and_false, if_false]
  congr 1
  apply List.map_congr_left
  intro d hd
  have hview := (view_eq_iff.mp h).2 d (hdrawn _ (fun x hx =>
    (m.sort_perm _).subset (List.mem_of_mem_take hx)) d hd)
  have hremoved : a.removedFromDrive d.id = b.removedFromDrive d.id :=
    congrArg DocumentView.removed hview
  rw [withUploader_congr hview, hremoved]

end Reading

end Api

namespace Documents

theorem rows_eq (t : Documents) : t.rows = (t.rows.map Document.id).filterMap t.get := by
  rw [List.filterMap_map]
  have hget : ∀ r ∈ t.rows, (t.get ∘ Document.id) r = some r := fun r hr => get_of_mem hr
  rw [List.filterMap_congr hget, List.filterMap_some]

/-- Rows are known by their ids and by what is found under each. -/
theorem rows_of_get {t t' : Documents} {g : Document → Document}
    (hids : t'.rows.map Document.id = t.rows.map Document.id)
    (hget : ∀ k, t'.get k = (t.get k).map g) : t'.rows = t.rows.map g := by
  have hfun : t'.get = fun k => (t.get k).map g := funext hget
  calc t'.rows = (t.rows.map Document.id).filterMap fun k => (t.get k).map g := by
        rw [t'.rows_eq, hids, hfun]
    _ = ((t.rows.map Document.id).filterMap t.get).map g := (List.map_filterMap ..).symm
    _ = t.rows.map g := by rw [← t.rows_eq]

end Documents

namespace World

section Erasing

variable {w w' : World} {d e : Document} {luck : EraseLuck}

/-- A document has the same file, and something in the same places. -/
structure Same (w w' : World) (d : Document) : Prop where
  raw : d.rawPath.bind (w.objects .raw) = d.rawPath.bind (w'.objects .raw)
  present : w.present d = w'.present d

/-- Where an object of a document lies. -/
def place (d : Document) : EraseSlot → Option ObjectKey
  | .raw => d.rawPath
  | .quarantine => d.quarantinePath
  | .extracted | .normalized => some (artifactKeyFor d.id)

theorem dropObject_apply (objects : Bucket → ObjectKey → Option Bytes) (b b' : Bucket)
    (path : Option ObjectKey) (k : ObjectKey) : dropObject objects b path b' k =
      if b' = b ∧ path = some k then none else objects b' k := by
  cases path with
  | none => simp [dropObject]
  | some k' =>
    by_cases hb : b' = b
    · subst hb
      by_cases hk : k = k'
      · simp [dropObject, hk]
      · simp [dropObject, hk, Ne.symm hk]
    · simp [dropObject, hb]

theorem removeSlot_objects (slot : EraseSlot) (b : Bucket) (k : ObjectKey) :
    (w.removeSlot d slot).objects b k =
      if (slot = .raw ∧ b = .raw ∨ slot = .quarantine ∧ b = .quarantine) ∧
          place d slot = some k then
        none
      else w.objects b k := by
  cases slot with
  | raw => simp [removeSlot, removeObject_eq, dropObject_apply, place]
  | quarantine => simp [removeSlot, removeObject_eq, dropObject_apply, place]
  | extracted => simp [removeSlot]
  | normalized => simp [removeSlot]

theorem raw_other (slot : EraseSlot) : e.rawPath.bind ((w.removeSlot d slot).objects .raw) =
    if slot = .raw ∧ d.rawPath = e.rawPath then none else e.rawPath.bind (w.objects .raw) := by
  cases he : e.rawPath with
  | none => simp
  | some k =>
    rw [Option.bind_some, Option.bind_some, removeSlot_objects]
    cases slot <;> simp [place]

theorem present_other (slot slot' : EraseSlot) : (w.removeSlot d slot).present e slot' =
    (w.present e slot' && !(slot' = slot && place d slot = place e slot)) := by
  have hartifact : artifactKeyFor e.id = artifactKeyFor d.id ↔
      artifactKeyFor d.id = artifactKeyFor e.id := eq_comm
  cases slot' with
  | raw =>
    cases he : e.rawPath with
    | none => simp [present, he]
    | some k =>
      simp only [present, he, Option.any_some, removeSlot_objects]
      by_cases hk : place d slot = some k
      · cases slot <;> simp_all [place]
      · cases slot <;> simp_all [place]
  | quarantine =>
    cases he : e.quarantinePath with
    | none => simp [present, he]
    | some k =>
      simp only [present, he, Option.any_some, removeSlot_objects]
      by_cases hk : place d slot = some k
      · cases slot <;> simp_all [place]
      · cases slot <;> simp_all [place]
  | extracted =>
    cases slot <;> simp [present, World.removeSlot, removeObject_eq, place, Function.update_apply,
      hartifact]
    split <;> simp_all
  | normalized =>
    cases slot <;> simp [present, World.removeSlot, removeObject_eq, place, Function.update_apply,
      hartifact]
    split <;> simp_all

theorem Same.removeSlot (h : Same w w' e) (slot : EraseSlot) :
    Same (w.removeSlot d slot) (w'.removeSlot d slot) e := by
  refine ⟨?_, ?_⟩
  · rw [raw_other, raw_other, h.raw]
  · funext slot'
    rw [present_other, present_other, h.present]

theorem removeObjects_same (luck : EraseLuck) (docs : Document → Prop) (hd : docs d)
    (h : ∀ e, docs e → Same w w' e) (slots : List EraseSlot) :
    (removeObjects luck d slots w).1 = (removeObjects luck d slots w').1 ∧
      ∀ e, docs e → Same (removeObjects luck d slots w).2 (removeObjects luck d slots w').2 e := by
  induction slots generalizing w w' with
  | nil => exact ⟨rfl, h⟩
  | cons slot slots ih =>
    have hpresent : w.present d slot = w'.present d slot := congrFun (h d hd).present slot
    simp only [removeObjects, ← hpresent]
    cases w.present d slot with
    | false => exact ih h
    | true =>
      cases luck.deletes slot with
      | false => exact ⟨rfl, h⟩
      | true => exact ih fun e he => (h e he).removeSlot slot

theorem removeObjects_now (luck : EraseLuck) (d : Document) (slots : List EraseSlot) (w : World) :
    (removeObjects luck d slots w).2.now = w.now := by
  induction slots generalizing w with
  | nil => rfl
  | cons slot slots ih =>
    rw [removeObjects]
    split
    · split
      · rw [ih]
        cases slot with
        | raw => rw [removeSlot, removeObject_eq]
        | quarantine => rw [removeSlot, removeObject_eq]
        | extracted => rfl
        | normalized => rfl
      · rfl
    · exact ih w

theorem busy_cancelled (id : DocumentId) :
    ({ w with jobs := w.jobs.map (w.cancelJob d.id) } : World).busy id = w.busy id := by
  simp only [busy, List.any_map]
  congr 1
  funext j
  simp only [Function.comp_apply, cancelJob]
  split
  · rename_i hj
    simp [hj.2]
  · rfl

/-- What an erasure makes of a row. -/
def tombstone (doc : Document) (now : Nat) (r : Document) : Document :=
  if r.id = doc.id ∧ r.purgedAt = none then r.purged now
  else if doc.checksum ≠ none ∧ r.checksum = doc.checksum ∧ r.status = .duplicate then
    r.purgedDuplicate now
  else r

theorem purge_ids (id : DocumentId) :
    (w.purge id).documents.rows.map Document.id = w.documents.rows.map Document.id := by
  unfold purge
  split
  · rfl
  · split
    · rfl
    · split
      · rfl
      · rename_i t ht
        rw [Documents.rows_modify ht, Documents.map_id_rewrite]

theorem purgeDuplicatesOf_ids (sha256 : Sha256) :
    (w.purgeDuplicatesOf sha256).documents.rows.map Document.id =
      w.documents.rows.map Document.id := by
  unfold purgeDuplicatesOf
  generalize List.map Document.id (List.filter _ _) = ids
  dsimp only
  induction ids generalizing w with
  | nil => rfl
  | cons id ids ih =>
    rw [List.foldl_cons, ih]
    split
    · rfl
    · rename_i t ht
      rw [Documents.rows_modify ht, Documents.map_id_rewrite]

theorem tombstoned_rows (doc : Document) :
    (w.tombstoned doc).rows = w.documents.rows.map (tombstone doc w.now) := by
  have hids : (w.tombstoned doc).rows.map Document.id = w.documents.rows.map Document.id := by
    unfold tombstoned
    split
    · exact purge_ids doc.id
    · exact (purgeDuplicatesOf_ids _).trans (purge_ids doc.id)
  have hget : ∀ k, (w.tombstoned doc).get k = (w.documents.get k).map (tombstone doc w.now) := by
    intro k
    have hk := w.tombstoned_get doc k
    rw [World.doc] at hk
    rw [hk]
    cases hr : w.documents.get k with
    | none => rfl
    | some r => simp [tombstone, Documents.get_id hr, Document.purgedDuplicate]
  exact Documents.rows_of_get hids hget

theorem buried_eq (w : World) (doc : Document) :
    (match doc.checksum with
      | none => w.purge doc.id
      | some sha256 => (w.purge doc.id).purgeDuplicatesOf sha256) =
      { w with documents := w.tombstoned doc } := by
  obtain ⟨t, ht⟩ := w.purge_eq doc.id
  unfold tombstoned
  cases doc.checksum with
  | none => simp only [ht]
  | some sha256 =>
    obtain ⟨t', ht'⟩ := (w.purge doc.id).purgeDuplicatesOf_eq sha256
    simp only
    rw [ht', ht]

/-- The world when the objects are about to be removed. -/
def claimed (luck : EraseLuck) (w : World) (doc : Document) : World :=
  if luck.auditWritten then
    ({ w with jobs := w.jobs.map (w.cancelJob doc.id) } : World).auditEvent doc.id .documentDeleted
      true
  else w

theorem eraseAttempt_idle (luck : EraseLuck) (hidle : w.busy d.id = false) :
    eraseAttempt luck w d = match removeObjects luck d eraseSlots (claimed luck w d) with
      | (some slot, w) => (.storageEraseFailed slot, w)
      | (none, w) =>
        if luck.auditWritten then
          (.erased, { w with
            chunks := w.chunks.filter fun c => c.documentId ≠ d.id
            documents := ({ w with chunks := w.chunks.filter fun c => c.documentId ≠ d.id } :
              World).tombstoned d })
        else (.databaseError, w) := by
  have hclaimed : (if luck.auditWritten then
      ({ w with jobs := w.jobs.map (w.cancelJob d.id) } : World).auditEvent d.id
        .documentDeleted true
      else w) = claimed luck w d := rfl
  rw [eraseAttempt, if_neg (by rw [hidle]; exact Bool.false_ne_true)]
  dsimp only
  rw [hclaimed]
  generalize removeObjects luck d eraseSlots (claimed luck w d) = result
  obtain ⟨slot, w₁⟩ := result
  cases slot with
  | some slot => rfl
  | none =>
    cases luck.auditWritten with
    | false => rfl
    | true =>
      have hburied :=
        buried_eq { w₁ with chunks := w₁.chunks.filter fun c => c.documentId ≠ d.id } d
      cases hc : d.checksum with
      | none =>
        rw [hc] at hburied
        exact congrArg (Prod.mk EraseOutcome.erased) hburied
      | some sha256 =>
        rw [hc] at hburied
        exact congrArg (Prod.mk EraseOutcome.erased) hburied

theorem claimed_rows (luck : EraseLuck) (w : World) (doc : Document) :
    (claimed luck w doc).documents = w.documents ∧ (claimed luck w doc).chunks = w.chunks ∧
      (claimed luck w doc).now = w.now ∧ (∀ id, (claimed luck w doc).busy id = w.busy id) ∧
      (claimed luck w doc).objects = w.objects ∧ (claimed luck w doc).extracted = w.extracted ∧
      (claimed luck w doc).normalized = w.normalized := by
  unfold claimed
  split
  · exact ⟨rfl, rfl, rfl, busy_cancelled, rfl, rfl, rfl⟩
  · exact ⟨rfl, rfl, rfl, fun _ => rfl, rfl, rfl, rfl⟩

/-- The rows, the passages and the work in hand after a write. -/
structure Rewritten (w w' : World) (g : Document → Document) (keep : Chunk → Bool) : Prop where
  rows : w'.documents.rows = w.documents.rows.map g
  chunks : w'.chunks = w.chunks.filter keep
  busy : ∀ id, w'.busy id = w.busy id

def erasedRow (outcome : EraseOutcome) (doc : Document) (now : Nat) (r : Document) : Document :=
  if outcome = .erased then tombstone doc now r else r

def keptChunk (outcome : EraseOutcome) (doc : Document) (c : Chunk) : Bool :=
  outcome ≠ .erased || c.documentId ≠ doc.id

theorem rewritten_still {g : Document → Document} {keep : Chunk → Bool}
    (hd : w'.documents = w.documents) (hc : w'.chunks = w.chunks)
    (hb : ∀ id, w'.busy id = w.busy id) (hg : ∀ r, g r = r) (hk : ∀ c, keep c = true) :
    Rewritten w w' g keep := by
  refine ⟨?_, ?_, hb⟩
  · have hid : g = id := funext hg
    rw [hd, hid, List.map_id]
  · rw [hc, List.filter_eq_self.mpr fun c _ => hk c]

theorem eraseAttempt_rewritten (luck : EraseLuck) (w : World) (d : Document) :
    Rewritten w (eraseAttempt luck w d).2 (erasedRow (eraseAttempt luck w d).1 d w.now)
      (keptChunk (eraseAttempt luck w d).1 d) := by
  cases hbusy : w.busy d.id with
  | true =>
    have hb : eraseAttempt luck w d = (.documentBusy, w) := by rw [eraseAttempt, if_pos hbusy]
    rw [hb]
    exact rewritten_still rfl rfl (fun _ => rfl) (fun _ => rfl) fun _ => rfl
  | false =>
    obtain ⟨hd, hc, hnow, hb, -⟩ := claimed_rows luck w d
    have hloop := removeObjects_rows luck d eraseSlots (claimed luck w d)
    have hloopNow := removeObjects_now luck d eraseSlots (claimed luck w d)
    rw [eraseAttempt_idle luck hbusy]
    generalize removeObjects luck d eraseSlots (claimed luck w d) = result at hloop hloopNow
    obtain ⟨slot, w₁⟩ := result
    obtain ⟨hld, hlc, hlj⟩ := hloop
    have hlb : ∀ id, w₁.busy id = w.busy id := fun id => by
      rw [← hb id, busy, busy, hlj]
    cases slot with
    | some slot =>
      exact rewritten_still (hld.trans hd) (hlc.trans hc) hlb (fun _ => rfl) fun _ => rfl
    | none =>
      cases luck.auditWritten with
      | false =>
        exact rewritten_still (hld.trans hd) (hlc.trans hc) hlb (fun _ => rfl) fun _ => rfl
      | true =>
        refine ⟨?_, ?_, hlb⟩
        · simp only [if_true, tombstoned_rows]
          rw [hld, hd, hloopNow, hnow]
          rfl
        · simp only [if_true]
          rw [hlc, hc]
          apply List.filter_congr
          intro c _
          simp [keptChunk]

theorem Same.of_stores {u u' : World} (h : Same w w' e) (ho : u.objects = w.objects)
    (he : u.extracted = w.extracted) (hn : u.normalized = w.normalized)
    (ho' : u'.objects = w'.objects) (he' : u'.extracted = w'.extracted)
    (hn' : u'.normalized = w'.normalized) : Same u u' e := by
  refine ⟨?_, ?_⟩
  · rw [ho, ho', h.raw]
  · funext slot
    rw [present_congr ho he hn, present_congr ho' he' hn', h.present]

theorem eraseAttempt_same (luck : EraseLuck) (docs : Document → Prop) (hd : docs d)
    (h : ∀ e, docs e → Same w w' e) (hbusy : w.busy d.id = w'.busy d.id) :
    (eraseAttempt luck w d).1 = (eraseAttempt luck w' d).1 ∧
      ∀ e, docs e → Same (eraseAttempt luck w d).2 (eraseAttempt luck w' d).2 e := by
  cases hb : w.busy d.id with
  | true =>
    rw [eraseAttempt, eraseAttempt, if_pos hb, if_pos (hbusy ▸ hb)]
    exact ⟨rfl, h⟩
  | false =>
    rw [eraseAttempt_idle luck hb, eraseAttempt_idle luck (hbusy ▸ hb)]
    have hclaimed : ∀ e, docs e → Same (claimed luck w d) (claimed luck w' d) e := by
      intro e he
      obtain ⟨-, -, -, -, ho, hx, hn⟩ := claimed_rows luck w d
      obtain ⟨-, -, -, -, ho', hx', hn'⟩ := claimed_rows luck w' d
      exact (h e he).of_stores ho hx hn ho' hx' hn'
    obtain ⟨hslot, hloop⟩ := removeObjects_same luck docs hd hclaimed eraseSlots
    generalize removeObjects luck d eraseSlots (claimed luck w d) = result at hslot hloop
    generalize removeObjects luck d eraseSlots (claimed luck w' d) = result' at hslot hloop
    obtain ⟨slot, w₁⟩ := result
    obtain ⟨slot', w₁'⟩ := result'
    obtain rfl : slot = slot' := hslot
    cases slot with
    | some slot => exact ⟨rfl, hloop⟩
    | none =>
      cases luck.auditWritten with
      | false => exact ⟨rfl, hloop⟩
      | true => exact ⟨rfl, fun e he => (hloop e he).of_stores rfl rfl rfl rfl rfl rfl⟩

/-- A row that keeps its id and keeps or loses its paths. -/
structure Keeps (r r' : Document) : Prop where
  id : r'.id = r.id
  ownerId : r'.ownerId = r.ownerId
  rawPath : r'.rawPath = r.rawPath ∨ r'.rawPath = none
  quarantinePath : r'.quarantinePath = r.quarantinePath ∨ r'.quarantinePath = none

theorem erasedRow_keeps (outcome : EraseOutcome) (doc : Document) (now : Nat) (r : Document) :
    Keeps r (erasedRow outcome doc now r) ∧
      (erasedRow outcome doc now r).classification = r.classification := by
  unfold erasedRow tombstone
  split
  · split
    · exact ⟨⟨rfl, rfl, .inr rfl, .inr rfl⟩, rfl⟩
    · split
      · exact ⟨⟨rfl, rfl, .inl rfl, .inr rfl⟩, rfl⟩
      · exact ⟨⟨rfl, rfl, .inl rfl, .inl rfl⟩, rfl⟩
  · exact ⟨⟨rfl, rfl, .inl rfl, .inl rfl⟩, rfl⟩

theorem Same.kept {e' : Document} (h : Same w w' e) (hk : Keeps e e') : Same w w' e' := by
  refine ⟨?_, ?_⟩
  · rcases hk.rawPath with hr | hr
    · rw [hr, h.raw]
    · rw [hr]
      rfl
  · have hpresent := fun slot => congrFun h.present slot
    funext slot
    cases slot with
    | raw =>
      rcases hk.rawPath with hr | hr
      · simpa only [World.present, hr] using hpresent .raw
      · simp only [World.present, hr, Option.any_none]
    | quarantine =>
      rcases hk.quarantinePath with hr | hr
      · simpa only [World.present, hr] using hpresent .quarantine
      · simp only [World.present, hr, Option.any_none]
    | extracted => simpa only [World.present, hk.id] using hpresent .extracted
    | normalized => simpa only [World.present, hk.id] using hpresent .normalized

end Erasing

end World

namespace Api

section Writing

variable {a b a' b' : Api} {v : User} {id : DocumentId} {d : Document} {m : Moment}
  {g : Document → Document} {keep : Chunk → Bool}

/-- A write by a request: the rows, the passages, and an entry in the audit log at most. -/
structure Writes (a a' : Api) (g : Document → Document) (keep : Chunk → Bool)
    (entries : List AuditRecord) : Prop where
  world : World.Rewritten a.world a'.world g keep
  createdAt : a'.createdAt = a.createdAt
  users : a'.users = a.users
  files : a'.drive.files = a.drive.files
  versions : a'.drive.versions = a.drive.versions
  records : a'.records = a.records ++ entries

theorem Writes.viewOf {entries : List AuditRecord} (h : Writes a a' g keep entries) {r : Document}
    (hk : World.Keeps r (g r)) : a'.viewOf (g r) =
      { document := g r, createdAt := a.createdAt r.id, uploadedBy := a.uploaderEmail r,
        records := a.recordsOf r.id ++ entries.filter (·.documentId = r.id),
        removed := a.removedFromDrive r.id,
        chunks := (a.world.chunks.filter (·.documentId = r.id)).filter keep,
        busy := a.world.busy r.id,
        raw := (g r).rawPath.bind (a'.world.objects .raw),
        present := a'.world.present (g r) } := by
  have hchunks : a'.world.chunks.filter (·.documentId = r.id) =
      (a.world.chunks.filter (·.documentId = r.id)).filter keep := by
    rw [h.world.chunks, List.filter_filter, List.filter_filter]
    apply List.filter_congr
    intro c _
    exact Bool.and_comm _ _
  simp only [Api.viewOf, hk.id, h.createdAt, uploaderEmail, hk.ownerId, h.users, recordsOf,
    h.records, List.filter_append, removedFromDrive, SyncState.removedFromDrive, h.files,
    h.versions, h.world.busy, hchunks]

/-- Two writes that do the same to what is seen leave what is seen the same. -/
theorem view_writes {entries : List AuditRecord} (h : view v a = view v b)
    (ha : Writes a a' g keep entries) (hb : Writes b b' g keep entries)
    (hsee : ∀ r, World.Keeps r (g r))
    (hseea : ∀ r ∈ a.world.documents.rows, canSee v (g r) = canSee v r)
    (hseeb : ∀ r ∈ b.world.documents.rows, canSee v (g r) = canSee v r)
    (hsame : ∀ e ∈ a.seen v, World.Same a'.world b'.world e) : view v a' = view v b' := by
  have hseen : ∀ {c c' : Api}, Writes c c' g keep entries →
      (∀ r ∈ c.world.documents.rows, canSee v (g r) = canSee v r) →
        c'.seen v = (c.seen v).map g := by
    intro c c' hw hc
    rw [seen, hw.world.rows, List.filter_map, seen]
    congr 1
    apply List.filter_congr
    exact hc
  obtain ⟨hrows, hview⟩ := view_eq_iff.mp h
  rw [view, view, hseen ha hseea, hseen hb hseeb, ← hrows, List.map_map, List.map_map]
  apply List.map_congr_left
  intro e he
  have hsame' := (hsame e he).kept (hsee e)
  have hv := hview e he
  simp only [Api.viewOf, DocumentView.mk.injEq, true_and] at hv
  obtain ⟨hcreated, huploaded, hrecords, hremoved, hchunks, hbusy, -, -⟩ := hv
  simp only [Function.comp_apply, ha.viewOf (hsee e), hb.viewOf (hsee e), hcreated, huploaded,
    hrecords, hremoved, hchunks, hbusy, hsame'.raw, hsame'.present]

theorem seen_same (h : view v a = view v b) : ∀ e ∈ a.seen v, World.Same a.world b.world e := by
  intro e he
  have hv := (view_eq_iff.mp h).2 e he
  exact ⟨congrArg DocumentView.raw hv, congrArg DocumentView.present hv⟩

/-- A write to one row, after an entry in the audit log. -/
theorem writes_modify {f : Document → Document} {written : Bool} {record : AuditRecord}
    {t : Documents} (ht : a.world.documents.modify id f = some t) :
    Writes a ((a.log written record).withWorld
        { (a.log written record).world with documents := t })
      (fun r => if r.id = id then { f r with id := r.id } else r) (fun _ => true)
      (if written then [record] else []) := by
  have hrows := Documents.rows_modify ht
  have hmap : Documents.rewrite id f a.world.documents.rows =
      a.world.documents.rows.map fun r => if r.id = id then { f r with id := r.id } else r := by
    simp [Documents.rewrite, Table.update]
  have hchunks : a.world.chunks = a.world.chunks.filter fun _ => true := by simp
  cases written with
  | true => exact ⟨⟨hrows.trans hmap, hchunks, fun _ => rfl⟩, rfl, rfl, rfl, rfl, rfl⟩
  | false =>
    refine ⟨⟨hrows.trans hmap, hchunks, fun _ => rfl⟩, rfl, rfl, rfl, rfl, ?_⟩
    exact (List.append_nil _).symm

theorem mem_seen (hd : a.docFor v id = some d) :
    a.world.documents.get id = some d ∧ canSee v d = true := by
  have hmem := docFor_eq_some.mp hd
  have hrow := List.mem_filter.mp hmem.1
  exact ⟨hmem.2 ▸ Documents.get_of_mem hrow.1, hrow.2⟩

theorem canSee_modified {f : Document → Document} (hd : a.docFor v id = some d)
    (hf : canSee v { f d with id := d.id } = true) : ∀ r ∈ a.world.documents.rows,
      canSee v (if r.id = id then { f r with id := r.id } else r) = canSee v r := by
  intro r hr
  obtain ⟨hget, hsee⟩ := mem_seen hd
  split
  · rename_i hid
    have hrow := Documents.get_of_mem hr
    rw [hid, hget] at hrow
    cases hrow
    rw [hf, hsee]
  · rfl

theorem view_modify {f : Document → Document} {written : Bool} {record : AuditRecord}
    {t t' : Documents} (h : view v a = view v b) (hd : a.docFor v id = some d)
    (ht : a.world.documents.modify id f = some t) (ht' : b.world.documents.modify id f = some t')
    (hk : ∀ r, World.Keeps r { f r with id := r.id })
    (hf : canSee v { f d with id := d.id } = true) :
    view v ((a.log written record).withWorld { (a.log written record).world with documents := t }) =
      view v ((b.log written record).withWorld
        { (b.log written record).world with documents := t' }) := by
  refine view_writes h (writes_modify ht) (writes_modify ht') ?_ (canSee_modified hd hf)
    (canSee_modified (docFor_congr h id ▸ hd) hf) ?_
  · intro r
    split
    · exact hk r
    · exact ⟨rfl, rfl, .inl rfl, .inl rfl⟩
  · intro e he
    have hsame := seen_same h e he
    cases written <;> exact ⟨hsame.raw, hsame.present⟩

/-- The change a request makes, if the caller's document lets it: a row, after an entry in the
audit log. -/
structure Changes (v : User) (id : DocumentId) (d : Document) (f : Document → Document)
    (ok : Api → Prop) (request : Api → ApiReply × Api) : Prop where
  keeps : ∀ r, World.Keeps r { f r with id := r.id }
  seen : canSee v { f d with id := d.id } = true
  same : ∃ reply written record, record.documentId = id ∧ ∀ c : Api,
    c.docFor v id = some d → ok c → ∃ t, c.world.documents.modify id f = some t ∧ request c =
      (reply, (c.log written record).withWorld
        { (c.log written record).world with documents := t })

theorem Changes.congr {f : Document → Document} {ok : Api → Prop}
    {request : Api → ApiReply × Api} (hc : Changes v id d f ok request) (h : view v a = view v b)
    (hd : a.docFor v id = some d) (hok : ok a) (hok' : ok b) :
    (request a).1 = (request b).1 ∧ view v (request a).2 = view v (request b).2 := by
  obtain ⟨reply, written, record, -, hsame⟩ := hc.same
  obtain ⟨t, ht, ha⟩ := hsame a hd hok
  obtain ⟨t', ht', hb⟩ := hsame b (docFor_congr h id ▸ hd) hok'
  rw [ha, hb]
  exact ⟨rfl, view_modify h hd ht ht' hc.keeps hc.seen⟩

theorem canSee_own {r : Document} (hmay : mayChange v d = true) (ho : r.ownerId = d.ownerId) :
    canSee v r = true := by
  apply canSee_of_mayChange
  simpa only [mayChange, isOwner, ho] using hmay

theorem reclassify_changes {classification : Classification} {reason : Option String}
    (hmay : mayChange v d = true) (hpurged : d.purgedAt = none)
    (hne : d.classification ≠ some classification) :
    Changes v id d (fun r => { r with classification := some classification }) (fun _ => True)
      fun c => c.reclassifyDocument m v id classification reason := by
  refine ⟨fun r => ⟨rfl, rfl, .inl rfl, .inl rfl⟩, canSee_own hmay rfl, ?_⟩
  refine ⟨reclassified v d.classification classification
      { d with classification := some classification }, m.luck.auditWritten,
    ⟨id, .documentReclassified, m.now, none, [("old_tier", tierText d.classification),
      ("new_tier", classification.value), ("reason", reason.getD "None")]⟩, rfl,
    fun c hc _ => ?_⟩
  have hget := (mem_seen hc).1
  obtain ⟨t, ht⟩ := Documents.modify_accepted hget
    (f := fun r => { r with classification := some classification }) (fun h => h) rfl
  have hset : ∀ w : World, w.documents = c.world.documents →
      w.setClassification id classification = { w with documents := t } := by
    intro w hw
    rw [World.setClassification, hw, ht]
  have hlog : ∀ written record, (c.log written record).world.documents = c.world.documents := by
    intro written record
    cases written <;> rfl
  have hdoc : t.get id = some { d with classification := some classification } := by
    rw [Documents.modify_get_self ht hget, ← Documents.get_id hget]
  refine ⟨t, ht, ?_⟩
  simp only [reclassifyDocument, hc, hmay, hpurged, hne, Bool.not_true, Bool.false_eq_true,
    ne_eq, not_true_eq_false, if_false]
  rw [hset _ (hlog _ _)]
  have hnew : ∀ x : Api, (x.withWorld { x.world with documents := t }).doc id = t.get id :=
    fun _ => rfl
  rw [hnew, hdoc]
  rfl

theorem reclassify_congr (h : view v a = view v b) (classification : Classification)
    (reason : Option String) :
    (a.reclassifyDocument m v id classification reason).1 =
        (b.reclassifyDocument m v id classification reason).1 ∧
      view v (a.reclassifyDocument m v id classification reason).2 =
        view v (b.reclassifyDocument m v id classification reason).2 := by
  have hdoc := docFor_congr h id
  cases hd : a.docFor v id with
  | none => simp [reclassifyDocument, ← hdoc, hd, h]
  | some d =>
    by_cases hmay : mayChange v d = true
    · by_cases hpurged : d.purgedAt = none
      · by_cases hne : d.classification = some classification
        · simp [reclassifyDocument, ← hdoc, hd, hmay, hpurged, hne, h]
        · exact (reclassify_changes hmay hpurged hne).congr h hd trivial trivial
      · simp [reclassifyDocument, ← hdoc, hd, hmay, hpurged, h]
    · simp [reclassifyDocument, ← hdoc, hd, hmay, h]

theorem restoreDocument_accepted (m : Moment) (hd : a.docFor v id = some d)
    (hmay : mayChange v d = true) (hpurged : d.purgedAt = none) (hdeleted : d.deletedAt ≠ none)
    (hcurrent : d.status ≠ .superseded) (hdrive : a.removedFromDrive id = false) :
    ∃ t, a.world.documents.modify id (fun r => { r with deletedAt := none }) = some t ∧
      a.restoreDocument m v id = (.restored id d.status.value,
        (a.log m.luck.auditWritten (restoredRecord m id d)).withWorld
          { (a.log m.luck.auditWritten (restoredRecord m id d)).world with documents := t }) := by
  have hget := (mem_seen hd).1
  obtain ⟨t, ht⟩ := Documents.modify_accepted hget
    (f := fun r => { r with deletedAt := none }) (fun h => h) rfl
  have hrestore : ∀ w : World, w.documents = a.world.documents →
      w.restore id = (true, { w with documents := t }) := by
    intro w hw
    have hoffered : (decide (d.deletedAt ≠ none) && decide (d.purgedAt = none)) = true := by
      simp [hdeleted, hpurged]
    simp only [World.restore, World.doc, hw, hget, ht, hoffered, if_true]
  have hlog : ∀ written record, (a.log written record).world.documents = a.world.documents := by
    intro written record
    cases written <;> rfl
  refine ⟨t, ht, ?_⟩
  simp only [restoreDocument, hd, hmay, hpurged, hdeleted, hcurrent, hdrive, Bool.not_true,
    Bool.false_eq_true, ne_eq, not_true_eq_false, if_false]
  rw [hrestore _ (hlog _ _)]

theorem restore_changes (hmay : mayChange v d = true) (hpurged : d.purgedAt = none)
    (hdeleted : d.deletedAt ≠ none) (hcurrent : d.status ≠ .superseded) :
    Changes v id d (fun r => { r with deletedAt := none }) (fun c => c.removedFromDrive id = false)
      fun c => c.restoreDocument m v id :=
  ⟨fun _ => ⟨rfl, rfl, .inl rfl, .inl rfl⟩, canSee_own hmay rfl,
    .restored id d.status.value, m.luck.auditWritten, restoredRecord m id d, rfl,
    fun _ hc hdrive => restoreDocument_accepted m hc hmay hpurged hdeleted hcurrent hdrive⟩

theorem restore_congr (h : view v a = view v b) :
    (a.restoreDocument m v id).1 = (b.restoreDocument m v id).1 ∧
      view v (a.restoreDocument m v id).2 = view v (b.restoreDocument m v id).2 := by
  have hdoc := docFor_congr h id
  cases hd : a.docFor v id with
  | none => simp [restoreDocument, ← hdoc, hd, h]
  | some d =>
    have hdrive : a.removedFromDrive id = b.removedFromDrive id := by
      have hremoved := congrArg DocumentView.removed (viewOf_congr h hd)
      rwa [← (docFor_eq_some.mp hd).2]
    by_cases hmay : mayChange v d = true
    · by_cases hpurged : d.purgedAt = none
      · by_cases hdeleted : d.deletedAt = none
        · simp [restoreDocument, ← hdoc, hd, hmay, hpurged, hdeleted, h]
        · by_cases hcurrent : d.status = .superseded
          · simp [restoreDocument, ← hdoc, hd, hmay, hpurged, hdeleted, hcurrent, h]
          · cases hr : a.removedFromDrive id with
            | true =>
              simp [restoreDocument, ← hdoc, hd, hmay, hpurged, hdeleted, hcurrent, hr, ← hdrive, h]
            | false =>
              exact (restore_changes hmay hpurged hdeleted hcurrent).congr h hd hr (hdrive ▸ hr)
      · simp [restoreDocument, ← hdoc, hd, hmay, hpurged, h]
    · simp [restoreDocument, ← hdoc, hd, hmay, h]

theorem delete_congr (h : view v a = view v b) (hnow : a.world.now = b.world.now) :
    (a.deleteDocument m v id).1 = (b.deleteDocument m v id).1 ∧
      view v (a.deleteDocument m v id).2 = view v (b.deleteDocument m v id).2 := by
  have hdoc := docFor_congr h id
  cases hd : a.docFor v id with
  | none => simp [deleteDocument, ← hdoc, hd, h]
  | some d =>
    by_cases hmay : mayChange v d = true
    · by_cases hpurged : d.purgedAt = none
      · have hbusy : a.world.busy d.id = b.world.busy d.id :=
          congrArg DocumentView.busy (viewOf_congr h hd)
        obtain ⟨hout, hsame⟩ := World.eraseAttempt_same m.luck (fun e => e ∈ a.seen v)
          (docFor_eq_some.mp hd).1 (seen_same h) hbusy
        have hra := World.eraseAttempt_rewritten m.luck a.world d
        have hrb := World.eraseAttempt_rewritten m.luck b.world d
        rw [← hout, ← hnow] at hrb
        simp only [deleteDocument, ← hdoc, hd, hmay, hpurged, Bool.not_true, Bool.false_eq_true,
          ne_eq, not_true_eq_false, if_false]
        generalize World.eraseAttempt m.luck a.world d = ra at hout hsame hra hrb ⊢
        generalize World.eraseAttempt m.luck b.world d = rb at hout hsame hra hrb ⊢
        obtain ⟨outcome, wa⟩ := ra
        obtain ⟨outcome', wb⟩ := rb
        obtain rfl : outcome = outcome' := hout
        have hrecorded : ∀ entries, view v { a.withWorld wa with records := a.records ++ entries } =
            view v { b.withWorld wb with records := b.records ++ entries } := by
          intro entries
          have hkeeps := World.erasedRow_keeps outcome d a.world.now
          have hsee : ∀ r, canSee v (World.erasedRow outcome d a.world.now r) = canSee v r := by
            intro r
            obtain ⟨hk, hc⟩ := hkeeps r
            rw [canSee, hc, hk.ownerId, canSee]
          exact view_writes h ⟨hra, rfl, rfl, rfl, rfl, rfl⟩ ⟨hrb, rfl, rfl, rfl, rfl, rfl⟩
            (fun r => (hkeeps r).1) (fun r _ => hsee r) (fun r _ => hsee r) hsame
        have hstill := hrecorded []
        simp only [List.append_nil] at hstill
        cases hw : m.luck.auditWritten <;> cases outcome <;>
          simp only [if_true, Bool.false_eq_true, if_false, h, hrecorded, true_and]
        all_goals exact hstill
      · simp [deleteDocument, ← hdoc, hd, hmay, hpurged, h]
    · simp [deleteDocument, ← hdoc, hd, hmay, h]

end Writing

section Running

variable {a b : Api} {v : User}

def answer (u : Unicode) (e : TextSearch) (v : User) (request : Moment × ApiRequest) (a : Api) :
    ApiReply × Api := serve u e v request.1 request.2 a

theorem answer_settles (u : Unicode) (e : TextSearch) (v : User) :
    Unwinding.Settles (answer u e v) (view v) := by
  rintro ⟨m, request⟩ a b h
  have hm : view v (a.withWorld { a.world with now := m.now }) =
      view v (b.withWorld { b.world with now := m.now }) := h
  cases request with
  | status id => exact ⟨getDocumentStatus_congr hm, hm⟩
  | classify id classification reason => exact reclassify_congr hm classification reason
  | download id => exact ⟨downloadDocument_congr hm, hm⟩
  | chunks id limit offset => exact ⟨getDocumentChunks_congr hm limit offset, hm⟩
  | delete id => exact delete_congr hm rfl
  | restore id => exact restore_congr hm
  | deleted limit => exact ⟨listDeletedDocuments_congr hm limit, hm⟩
  | list limit offset => exact ⟨listDocuments_congr hm limit offset, hm⟩
  | search q limit offset =>
    simp only [answer, serve]
    exact ⟨searchDocuments_congr hm limit offset, hm⟩

def shows (v : User) (a : Api) (id : DocumentId) : Bool := (a.docFor v id).isSome

theorem seen_unique (v : User) (a : Api) : UniqueActive (a.seen v) := fun r hr r' hr' =>
  a.world.documents.unique r (List.mem_of_mem_filter hr) r' (List.mem_of_mem_filter hr')

/-- The same without the documents the person may not see: no row, no passage, no job, no version
of a Drive file and no entry of the audit log is left of one. -/
def withoutHidden (v : User) (a : Api) : Api where
  drive :=
    { world := { a.world with
        documents := ⟨a.seen v, seen_nodup a, seen_unique v a⟩
        chunks := a.world.chunks.filter fun c => shows v a c.documentId
        jobs := a.world.jobs.filter fun j => shows v a j.documentId }
      files := a.drive.files
      versions := fun f => (a.drive.versions f).filter fun p => shows v a p.documentId }
  createdAt := a.createdAt
  users := a.users
  records := a.records.filter fun record => shows v a record.documentId

theorem view_withoutHidden (v : User) (a : Api) : view v (a.withoutHidden v) = view v a := by
  have hseen : (a.withoutHidden v).seen v = a.seen v := by
    simp only [seen, withoutHidden, world, List.filter_filter, Bool.and_self]
  rw [view, view, hseen]
  apply List.map_congr_left
  intro d hd
  have hshows : shows v a d.id = true := by
    rw [shows, docFor_eq_some.mpr ⟨hd, rfl⟩]
    rfl
  have hany : ∀ {β : Type} (l : List β) (p : β → DocumentId),
      ((l.filter fun x => shows v a (p x)).filter fun x => p x = d.id) =
        l.filter fun x => p x = d.id := by
    intro β l p
    rw [List.filter_filter]
    apply List.filter_congr
    intro x _
    by_cases hx : p x = d.id
    · simp [hx, hshows]
    · simp [hx]
  have hversions : ∀ l : List FileVersion, ((l.filter fun p => shows v a p.documentId).any
      fun p => p.documentId = d.id) = l.any fun p => p.documentId = d.id := by
    intro l
    rw [List.any_filter]
    congr 1
    funext p
    by_cases hp : p.documentId = d.id
    · simp [hp, hshows]
    · simp [hp]
  have hjobs : (a.withoutHidden v).world.busy d.id = a.world.busy d.id := by
    simp only [World.busy, withoutHidden, world, List.any_filter]
    congr 1
    funext j
    by_cases hj : j.documentId = d.id
    · simp [hj, hshows]
    · simp [hj]
  have hremoved : (a.withoutHidden v).removedFromDrive d.id = a.removedFromDrive d.id := by
    simp only [removedFromDrive, SyncState.removedFromDrive, withoutHidden, hversions]
  have hrecords : (a.withoutHidden v).recordsOf d.id = a.recordsOf d.id :=
    hany a.records AuditRecord.documentId
  have hchunks : (a.withoutHidden v).world.chunks.filter (·.documentId = d.id) =
      a.world.chunks.filter (·.documentId = d.id) := hany a.world.chunks Chunk.documentId
  simp only [viewOf, hrecords, hremoved, hchunks, hjobs]
  rfl

/-- No run of requests tells a document the caller may not see from one that does not exist. -/
theorem hidden_absent (u : Unicode) (e : TextSearch) (v : User) (a : Api)
    (requests : List (Moment × ApiRequest)) :
    Unwinding.replies (answer u e v) a requests =
      Unwinding.replies (answer u e v) (a.withoutHidden v) requests :=
  ((answer_settles u e v).replies (view_withoutHidden v a).symm requests).1

end Running

end Api

end KnowledgeBase
