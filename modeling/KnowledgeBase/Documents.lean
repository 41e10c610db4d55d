import KnowledgeBase.JobQueue
import KnowledgeBase.Table

/-! The documents table: its rows, the partial unique index over the hashes of the
active ones, and the writes the repository makes. -/

namespace KnowledgeBase

inductive DocumentStatus where
  | uploaded | quarantined | validated | validationFailed | rejected | extracted
  | extractionFailed | normalizationFailed | awaitingClassification | chunked
  | chunkingFailed | embeddingFailed | skippedUnsupportedLanguage | duplicate | live
  | superseded | archived
  deriving DecidableEq, Repr

inductive Classification where
  | «public» | restricted
  deriving DecidableEq, Repr

def DocumentStatus.value : DocumentStatus → String
  | uploaded => "UPLOADED"
  | quarantined => "QUARANTINED"
  | validated => "VALIDATED"
  | validationFailed => "VALIDATION_FAILED"
  | rejected => "REJECTED"
  | extracted => "EXTRACTED"
  | extractionFailed => "EXTRACTION_FAILED"
  | normalizationFailed => "NORMALIZATION_FAILED"
  | awaitingClassification => "AWAITING_CLASSIFICATION"
  | chunked => "CHUNKED"
  | chunkingFailed => "CHUNKING_FAILED"
  | embeddingFailed => "EMBEDDING_FAILED"
  | skippedUnsupportedLanguage => "SKIPPED_UNSUPPORTED_LANGUAGE"
  | duplicate => "DUPLICATE"
  | live => "LIVE"
  | superseded => "SUPERSEDED"
  | archived => "ARCHIVED"

def Classification.value : Classification → String
  | .public => "PUBLIC"
  | .restricted => "RESTRICTED"

def tierRank (c : Option Classification) : Nat := if c = some .restricted then 1 else 0

def isStricter (candidate current : Option Classification) : Bool :=
  tierRank current < tierRank candidate

abbrev Sha256 := String
abbrev UserId := Nat

/-- The keys of the object store: one file of a document, or the file of a hash. -/
inductive ObjectKey where
  | ofDocument (id : DocumentId) (extension : String)
  | ofContent (sha256 : Sha256) (extension : String)
  deriving DecidableEq, Repr

/-- A row of the documents table, and the copy of one that a handler holds. A path
is a bucket and a key; the bucket is always the one of its column. -/
structure Document where
  id : DocumentId
  filename : String
  ownerId : Option UserId
  title : Option String
  description : Option String
  mimeType : String
  pageCount : Option Nat
  extractionMethod : Option String
  uploadBatchId : Option Nat
  size : Nat
  checksum : Option Sha256
  status : DocumentStatus
  classification : Option Classification
  documentDate : Option Nat
  version : Nat
  supersedesId : Option DocumentId
  quarantinePath : Option ObjectKey
  rawPath : Option ObjectKey
  rejectionReason : Option String
  deletedAt : Option Nat
  purgedAt : Option Nat
  deriving DecidableEq, Repr

/-- The statuses the unique index and the lookup by hash leave out. -/
def DocumentStatus.retired : DocumentStatus → Bool
  | superseded | archived | rejected | duplicate => true
  | _ => false

def Document.active (d : Document) : Bool := !d.status.retired

/-- `uq_documents_active_sha256`. -/
def UniqueActive (rows : List Document) : Prop :=
  ∀ a ∈ rows, ∀ b ∈ rows, a.active = true → b.active = true → a.checksum ≠ none →
    a.checksum = b.checksum → a.id = b.id

instance (rows : List Document) : Decidable (UniqueActive rows) :=
  inferInstanceAs (Decidable (∀ a ∈ rows, ∀ b ∈ rows, a.active = true → b.active = true →
    a.checksum ≠ none → a.checksum = b.checksum → a.id = b.id))

structure Documents where
  rows : List Document
  ids : (rows.map Document.id).Nodup
  unique : UniqueActive rows

namespace Documents

def get (t : Documents) (id : DocumentId) : Option Document := Table.lookup Document.id t.rows id

def getByChecksum (t : Documents) (sha256 : Sha256) : Option Document :=
  t.rows.find? (fun r => r.checksum = some sha256 && r.active)

def rewrite (id : DocumentId) (f : Document → Document) (rows : List Document) :
    List Document :=
  Table.update (fun r => r.id = id) (fun r => { f r with id := r.id }) rows

theorem map_id_rewrite (id : DocumentId) (f : Document → Document) (rows : List Document) :
    (rewrite id f rows).map Document.id = rows.map Document.id := by
  rw [rewrite, Table.update, List.map_map]
  refine List.map_congr_left ?_
  intro r _
  rw [Function.comp_apply]
  split <;> rfl

/-- `UPDATE documents SET f WHERE document_id = id`, unless the index refuses it. -/
def modify (t : Documents) (id : DocumentId) (f : Document → Document) : Option Documents :=
  if h : UniqueActive (rewrite id f t.rows) then
    some ⟨rewrite id f t.rows, (map_id_rewrite id f t.rows).symm ▸ t.ids, h⟩
  else none

/-- An insert; a key that is taken, an active hash that is taken and a missing tier
are refused. -/
def insert (t : Documents) (d : Document) : Option Documents :=
  if h : ((t.rows ++ [d]).map Document.id).Nodup ∧ UniqueActive (t.rows ++ [d]) ∧
      d.classification ≠ none then
    some ⟨t.rows ++ [d], h.1, h.2.1⟩
  else none

end Documents

namespace Document

/-- What `update_document` writes: every column but the name, the owner, the size, the
tier and the two dates of deletion. -/
def writeBack (doc row : Document) : Document :=
  { row with
    status := doc.status, documentDate := doc.documentDate, checksum := doc.checksum,
    mimeType := doc.mimeType, rawPath := doc.rawPath, quarantinePath := doc.quarantinePath,
    rejectionReason := doc.rejectionReason, version := doc.version,
    supersedesId := doc.supersedesId, title := doc.title, description := doc.description,
    pageCount := doc.pageCount, extractionMethod := doc.extractionMethod,
    uploadBatchId := doc.uploadBatchId }

def created (doc : Document) : Document := { doc with deletedAt := none, purgedAt := none }

end Document

namespace Documents

def updateDocument (t : Documents) (doc : Document) : Option Documents :=
  if (t.get doc.id).isSome then t.modify doc.id doc.writeBack else t.insert doc.created

theorem get_id {t : Documents} {id : DocumentId} {d : Document} (h : t.get id = some d) :
    d.id = id := Table.key_of_lookup h

theorem mem_of_get {t : Documents} {id : DocumentId} {d : Document} (h : t.get id = some d) :
    d ∈ t.rows := Table.mem_of_lookup h

theorem get_of_mem {t : Documents} {d : Document} (h : d ∈ t.rows) : t.get d.id = some d := by
  cases hg : t.get d.id with
  | none => exact absurd rfl (Table.lookup_eq_none_iff.mp hg d h)
  | some e =>
    have hinj := List.inj_on_of_nodup_map t.ids
    rw [hinj (mem_of_get hg) h (get_id hg)]

theorem getByChecksum_spec {t : Documents} {sha256 : Sha256} {d : Document}
    (h : t.getByChecksum sha256 = some d) :
    t.get d.id = some d ∧ d.checksum = some sha256 ∧ d.active = true := by
  have hp := List.find?_some h
  rw [Bool.and_eq_true, decide_eq_true_eq] at hp
  exact ⟨get_of_mem (List.mem_of_find?_eq_some h), hp⟩

theorem getByChecksum_eq_none {t : Documents} {sha256 : Sha256}
    (h : t.getByChecksum sha256 = none) {id : DocumentId} {d : Document}
    (hd : t.get id = some d) (hs : d.checksum = some sha256) : d.active = false := by
  have hn := List.find?_eq_none.mp h d (mem_of_get hd)
  rw [Bool.and_eq_true, decide_eq_true_eq, not_and] at hn
  exact Bool.eq_false_iff.mpr (hn hs)

/-- The index makes the lookup by hash a function of the hash. -/
theorem getByChecksum_eq_some {t : Documents} {sha256 : Sha256} {id : DocumentId} {d : Document}
    (hd : t.get id = some d) (hs : d.checksum = some sha256) (ha : d.active = true) :
    t.getByChecksum sha256 = some d := by
  cases h : t.getByChecksum sha256 with
  | none =>
    rw [getByChecksum_eq_none h hd hs] at ha
    cases ha
  | some e =>
    obtain ⟨he, hes, hea⟩ := getByChecksum_spec h
    have hid : e.id = d.id := t.unique e (mem_of_get he) d (mem_of_get hd) hea ha
      (by rw [hes]; exact Option.some_ne_none _) (by rw [hes, hs])
    rw [hid, get_id hd] at he
    exact he.symm.trans hd

theorem modify_get {t t' : Documents} {id : DocumentId} {f : Document → Document}
    (h : t.modify id f = some t') (k : DocumentId) :
    t'.get k = (t.get k).map (fun r => if r.id = id then { f r with id := r.id } else r) := by
  unfold modify at h
  split at h
  · obtain rfl := Option.some.inj h
    have hl : Table.lookup Document.id (rewrite id f t.rows) k =
        (Table.lookup Document.id t.rows k).map
          (fun r => if decide (r.id = id) then { f r with id := r.id } else r) :=
      Table.lookup_update (f := fun r => { f r with id := r.id }) (fun _ => rfl) t.rows k
    simpa [get] using hl
  · cases h

theorem modify_get_self {t t' : Documents} {id : DocumentId} {f : Document → Document}
    {d : Document} (h : t.modify id f = some t') (hd : t.get id = some d) :
    t'.get id = some { f d with id := id } := by
  rw [modify_get h, hd, Option.map_some, if_pos (get_id hd), get_id hd]

theorem modify_get_other {t t' : Documents} {id k : DocumentId} {f : Document → Document}
    (h : t.modify id f = some t') (hk : k ≠ id) : t'.get k = t.get k := by
  rw [modify_get h]
  cases hd : t.get k with
  | none => rfl
  | some d => rw [Option.map_some, if_neg (by rw [get_id hd]; exact hk)]

theorem insert_get {t t' : Documents} {d : Document} (h : t.insert d = some t')
    (k : DocumentId) : t'.get k = (t.get k).or (if d.id = k then some d else none) := by
  unfold insert at h
  split at h
  · obtain rfl := Option.some.inj h
    rw [get, Table.lookup_append, Table.lookup_cons, Table.lookup_nil, get]
  · cases h

theorem insert_fresh {t t' : Documents} {d : Document} (h : t.insert d = some t') :
    t.get d.id = none := by
  unfold insert at h
  split at h
  · rename_i hn
    rw [get, Table.lookup_eq_none_iff]
    intro r hr he
    have hnd := hn.1
    rw [List.map_append, List.nodup_append] at hnd
    exact hnd.2.2 r.id (List.mem_map_of_mem hr) d.id (by simp) he
  · cases h

/-- A row of a new id that has a tier and no hash yet is taken. -/
theorem insert_accepted {t : Documents} {d : Document} (hid : t.get d.id = none)
    (hc : d.checksum = none) (ht : d.classification ≠ none) : ∃ t', t.insert d = some t' := by
  have hfresh : ∀ r ∈ t.rows, r.id ≠ d.id := Table.lookup_eq_none_iff.mp hid
  have hids : ((t.rows ++ [d]).map Document.id).Nodup := by
    rw [List.map_append, List.nodup_append]
    refine ⟨t.ids, by simp, ?_⟩
    intro a ha b hb hab
    obtain ⟨r, hr, rfl⟩ := List.mem_map.mp ha
    have hbd : b = d.id := by simpa using hb
    exact hfresh r hr (hab.trans hbd)
  have hunique : UniqueActive (t.rows ++ [d]) := by
    intro a ha b hb haa hba hne hab
    rcases List.mem_append.mp ha with ha | ha
    · rcases List.mem_append.mp hb with hb | hb
      · exact t.unique a ha b hb haa hba hne hab
      · obtain rfl := List.mem_singleton.mp hb
        exact absurd (hab.trans hc) hne
    · obtain rfl := List.mem_singleton.mp ha
      exact absurd hc hne
  exact ⟨_, dif_pos ⟨hids, hunique, ht⟩⟩

/-- Two active rows of one hash are refused. -/
theorem modify_refused {t : Documents} {id : DocumentId} {f : Document → Document}
    {d e : Document} (hd : t.get id = some d) (ha : (f d).active = true) (he : e ∈ t.rows)
    (hid : e.id ≠ id) (hea : e.active = true) (hne : (f d).checksum ≠ none)
    (hc : e.checksum = (f d).checksum) : t.modify id f = none := by
  unfold modify
  refine dif_neg fun hu => hid ?_
  have hme : e ∈ rewrite id f t.rows := List.mem_map.mpr ⟨e, he, by simp [hid]⟩
  have hmd : { f d with id := id } ∈ rewrite id f t.rows :=
    List.mem_map.mpr ⟨d, mem_of_get hd, by simp [get_id hd]⟩
  exact hu e hme _ hmd hea ha (by rw [hc]; exact hne) hc

/-- A write is refused only for an active row whose hash another active row has. -/
theorem modify_eq_none {t : Documents} {id : DocumentId} {f : Document → Document}
    {d : Document} (hd : t.get id = some d) (h : t.modify id f = none) :
    (f d).active = true ∧ ∃ e ∈ t.rows, e.id ≠ id ∧ e.active = true ∧
      (f d).checksum ≠ none ∧ e.checksum = (f d).checksum := by
  unfold modify at h
  split at h
  · cases h
  · rename_i hu
    have hmem : ∀ r ∈ rewrite id f t.rows,
        (r.id = id ∧ r = { f d with id := id }) ∨ (r.id ≠ id ∧ r ∈ t.rows) := by
      intro r hr
      obtain ⟨q, hq, rfl⟩ := List.mem_map.mp hr
      by_cases hid : q.id = id
      · have hqd : q = d := by
          have hg := get_of_mem hq
          rw [hid, hd] at hg
          exact (Option.some.inj hg).symm
        left
        subst hqd
        simp [hid]
      · right
        simp [hid, hq]
    by_contra hno
    refine hu ?_
    intro a ha b hb haa hba hne hab
    rcases hmem a ha with ⟨hia, rfl⟩ | ⟨hia, hma⟩
    · rcases hmem b hb with ⟨hib, -⟩ | ⟨hib, hmb⟩
      · exact hib.symm
      · exact absurd ⟨haa, b, hmb, hib, hba, hne, hab.symm⟩ hno
    · rcases hmem b hb with ⟨hib, rfl⟩ | ⟨hib, hmb⟩
      · have hne' : (f d).checksum ≠ none := fun h => hne (hab.trans h)
        exact absurd ⟨hba, a, hma, hia, haa, hne', hab⟩ hno
      · exact t.unique a hma b hmb haa hba hne hab

/-- A write that leaves the hash and makes no row active is not refused. -/
theorem modify_accepted {t : Documents} {id : DocumentId} {f : Document → Document}
    {d : Document} (hd : t.get id = some d) (ha : (f d).active = true → d.active = true)
    (hc : (f d).checksum = d.checksum) : ∃ t', t.modify id f = some t' := by
  cases h : t.modify id f with
  | some t' => exact ⟨t', rfl⟩
  | none =>
    obtain ⟨hfa, e, he, hid, hea, hne, hec⟩ := modify_eq_none hd h
    have hsame := t.unique e he d (mem_of_get hd) hea (ha hfa) (by rw [hec]; exact hne)
      (by rw [hec, hc])
    exact absurd (hsame.trans (get_id hd)) hid

end Documents

end KnowledgeBase
