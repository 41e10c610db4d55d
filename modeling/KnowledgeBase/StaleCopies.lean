import KnowledgeBase.Repositories
import KnowledgeBase.Transition

/-! The repository in memory answers as the one over PostgreSQL does, as long as no copy of a
document is written back that has become stale in a column the database keeps. -/

namespace KnowledgeBase

open Ranking (Orders orderBy orders_orderBy)

namespace Documents

variable {t t' : Documents}

theorem unique_nil : UniqueActive [] := fun a ha => absurd ha List.not_mem_nil

theorem rows_modify {id : DocumentId} {f : Document → Document} (h : t.modify id f = some t') :
    t'.rows = rewrite id f t.rows := by
  unfold modify at h
  split at h
  · obtain rfl := Option.some.inj h
    rfl
  · cases h

theorem rows_insert {d : Document} (h : t.insert d = some t') : t'.rows = t.rows ++ [d] := by
  unfold insert at h
  split at h
  · obtain rfl := Option.some.inj h
    rfl
  · cases h

theorem rows_modifyAll {p : Document → Bool} {f : Document → Document}
    (h : t.modifyAll p f = some t') :
    t'.rows = Table.update p (fun r => { f r with id := r.id }) t.rows := by
  simp only [modifyAll] at h
  split at h
  · obtain rfl := Option.some.inj h
    rfl
  · cases h

/-- What is written to the row of an id depends on the row alone. -/
theorem update_eq_rewrite {id : DocumentId} {row d : Document} {f : Document → Document}
    (hrow : t.get id = some row) (hd : d = { f row with id := row.id }) :
    Table.update (fun r => r.id = id) (fun _ => d) t.rows = rewrite id f t.rows := by
  rw [rewrite, Table.update, Table.update]
  apply List.map_congr_left
  intro r hr
  by_cases hid : r.id = id
  · have hsame : r = row := by
      have hget := get_of_mem hr
      rw [hid, hrow] at hget
      exact (Option.some.inj hget).symm
    simp [hsame, hd]
  · simp [hid]

end Documents

/-- The two repositories, called alike, and the time. -/
structure Repositories where
  now : Nat
  database : PostgreSQLDocumentRepository
  memory : InMemoryDocumentRepository

/-- A call, how long after the one before it, and how the database lays out what it returns. -/
structure Use where
  elapsed : Nat
  sort : List Document → List Document
  call : RepositoryCall

namespace Repositories

variable (admits : List Document → Document → Bool)

/-- Only where the index of active hashes takes the call. -/
def step (p : Repositories) (u : Use) : Option Repositories :=
  (p.database.perform admits (p.now + u.elapsed) u.sort u.call).map fun q =>
    { now := p.now + u.elapsed, database := q.2
      memory := (p.memory.perform (p.now + u.elapsed) u.call).2 }

def empty : Repositories where
  now := 0
  database := { documents := ⟨[], List.nodup_nil, Documents.unique_nil⟩, createdAt := fun _ => 0 }
  memory := { storage := [], createdAt := fun _ => 0 }

/-- What memory answers the database may answer. -/
def Alike (p : Repositories) (u : Use) : Prop :=
  ∃ sort, p.database.Lays sort u.call ∧
    ∀ q, p.database.perform admits (p.now + u.elapsed) sort u.call = some q →
      q.1 = (p.memory.perform (p.now + u.elapsed) u.call).1

/-- A new document, built after all that are stored and without a date of deletion. -/
structure Fresh (m : InMemoryDocumentRepository) (doc : Document) (createdAt : Nat) : Prop where
  absent : m.get doc.id = none
  undeleted : doc.deletedAt = none
  unpurged : doc.purgedAt = none
  tiered : doc.classification ≠ none
  admitted : admits m.storage doc = true
  newest : ∀ d ∈ m.storage, m.createdAt d.id < createdAt

/-- A copy has the columns that a write back leaves alone as the stored document has them. -/
structure UpToDate (m : InMemoryDocumentRepository) (doc row : Document) (createdAt : Nat) :
    Prop where
  filename : doc.filename = row.filename
  ownerId : doc.ownerId = row.ownerId
  size : doc.size = row.size
  deletedAt : doc.deletedAt = row.deletedAt
  purgedAt : doc.purgedAt = row.purgedAt
  createdAt : createdAt = m.createdAt doc.id
  admitted : admits m.storage (doc.writeBack row) = true

def Writable (m : InMemoryDocumentRepository) (doc : Document) (createdAt : Nat) : Prop :=
  match m.get doc.id with
  | none => Fresh admits m doc createdAt
  | some row => UpToDate admits m doc row createdAt

def Meets (p : Repositories) (u : Use) : Prop :=
  match u.call with
  | .create doc createdAt => Fresh admits p.memory doc createdAt
  | .updateDocument doc createdAt => Writable admits p.memory doc createdAt
  | _ => True

/-- Memory holds what the database holds, and puts in order what was created in order. -/
structure Mirrors (now : Nat) (r : PostgreSQLDocumentRepository) (m : InMemoryDocumentRepository) :
    Prop where
  rows : m.storage = r.documents.rows
  newest : ∀ i ∈ r.documents.rows.map Document.id, ∀ j ∈ r.documents.rows.map Document.id,
    r.createdAt i < r.createdAt j → m.createdAt i < m.createdAt j
  past : ∀ i ∈ r.documents.rows.map Document.id, r.createdAt i ≤ now

variable {admits} {r r' : PostgreSQLDocumentRepository} {m : InMemoryDocumentRepository}
  {now : Nat} {a : Answer}

theorem Mirrors.get (h : Mirrors now r m) (id : DocumentId) :
    m.get id = r.documents.get id := by
  rw [InMemoryDocumentRepository.get, h.rows]
  rfl

theorem Mirrors.later {later : Nat} (h : Mirrors now r m) (hle : now ≤ later) :
    Mirrors later r m :=
  ⟨h.rows, h.newest, fun i hi => (h.past i hi).trans hle⟩

/-- The same write on both sides, which leaves the ids. -/
theorem Mirrors.rewritten {t : Documents} (h : Mirrors now r m) {storage : List Document}
    (hrows : storage = t.rows) (hids : t.rows.map Document.id = r.documents.rows.map Document.id) :
    Mirrors now { r with documents := t } { m with storage := storage } := by
  refine ⟨hrows, ?_, ?_⟩
  · rw [hids]
    exact h.newest
  · rw [hids]
    exact h.past

theorem Mirrors.altered (h : Mirrors now r m) {id : DocumentId} {f : Document → Document}
    {answer : Documents → Answer}
    (hs : r.saved (r.documents.modify id f) answer = some (a, r')) :
    a = answer r'.documents ∧ Mirrors now r' (m.alter id f) := by
  obtain ⟨t, ht, he⟩ := Option.map_eq_some_iff.mp hs
  cases he
  have hrows := Documents.rows_modify ht
  refine ⟨rfl, h.rewritten ?_ ?_⟩
  · rw [hrows, h.rows]
  · rw [hrows, Documents.map_id_rewrite]

theorem created_eq {doc : Document} (hd : doc.deletedAt = none) (hp : doc.purgedAt = none) :
    doc.created = doc := by
  cases doc
  simp only at hd hp
  subst hd hp
  rfl

theorem UpToDate.saved_eq {doc row : Document} {createdAt : Nat}
    (h : UpToDate admits m doc row createdAt) (hid : row.id = doc.id) :
    { doc with classification := row.classification } = doc.writeBack row := by
  obtain ⟨hfilename, howner, hsize, hdeleted, hpurged, -, -⟩ := h
  cases doc
  cases row
  simp only at hfilename howner hsize hdeleted hpurged hid
  subst hfilename howner hsize hdeleted hpurged hid
  rfl

theorem create_mirrors (h : Mirrors now r m) {doc : Document} {createdAt : Nat}
    (hfresh : Fresh admits m doc createdAt) (hs : r.create admits now doc = some (a, r')) :
    a = .document (some doc) ∧ Mirrors now r' (m.put doc createdAt) := by
  have hcreated := created_eq hfresh.undeleted hfresh.unpurged
  have habsent := hfresh.absent
  rw [h.get] at habsent
  have hadmitted := hfresh.admitted
  rw [h.rows] at hadmitted
  rw [PostgreSQLDocumentRepository.create, hcreated, if_neg (by
    simp [habsent, hfresh.tiered, hadmitted])] at hs
  obtain ⟨t, ht, he⟩ := Option.map_eq_some_iff.mp hs
  cases he
  have hrows := Documents.rows_insert ht
  have hids : t.rows.map Document.id = r.documents.rows.map Document.id ++ [doc.id] := by
    simp [hrows]
  have hother : ∀ i ∈ r.documents.rows.map Document.id, i ≠ doc.id := by
    intro i hi
    obtain ⟨d, hd, rfl⟩ := List.mem_map.mp hi
    exact Table.lookup_eq_none_iff.mp habsent d hd
  have holder : ∀ i ∈ r.documents.rows.map Document.id, m.createdAt i < createdAt := by
    intro i hi
    obtain ⟨d, hd, rfl⟩ := List.mem_map.mp hi
    exact hfresh.newest d (h.rows ▸ hd)
  constructor
  · rw [Documents.insert_get ht, habsent, Option.none_or, if_pos rfl]
  constructor
  · rw [InMemoryDocumentRepository.put, hfresh.absent]
    simp [hrows, h.rows]
  · intro i hi j hj hlt
    simp only [hids, List.mem_append, List.mem_singleton] at hi hj
    dsimp only [InMemoryDocumentRepository.put] at hlt ⊢
    rcases hi with hi | rfl
    · rw [Function.update_of_ne (hother i hi)] at hlt ⊢
      rcases hj with hj | rfl
      · rw [Function.update_of_ne (hother j hj)] at hlt ⊢
        exact h.newest i hi j hj hlt
      · rw [Function.update_self]
        exact holder i hi
    · -- nothing in the table is later than now
      rw [Function.update_self] at hlt
      rcases hj with hj | rfl
      · rw [Function.update_of_ne (hother j hj)] at hlt
        exact absurd (h.past j hj) (not_le.mpr hlt)
      · rw [Function.update_self] at hlt
        exact absurd hlt (lt_irrefl _)
  · intro i hi
    simp only [hids, List.mem_append, List.mem_singleton] at hi
    dsimp only
    rcases hi with hi | rfl
    · rw [Function.update_of_ne (hother i hi)]
      exact h.past i hi
    · rw [Function.update_self]

theorem updateDocument_mirrors (h : Mirrors now r m) {doc : Document} {createdAt : Nat}
    (hmeets : Writable admits m doc createdAt)
    (hs : r.updateDocument admits now doc = some (a, r')) :
    a = (m.updateDocument doc createdAt).1 ∧
      Mirrors now r' (m.updateDocument doc createdAt).2 := by
  unfold PostgreSQLDocumentRepository.updateDocument at hs
  unfold InMemoryDocumentRepository.updateDocument
  unfold Writable at hmeets
  rw [← h.get] at hs
  cases hget : m.get doc.id with
  | none =>
    rw [hget] at hmeets hs
    exact create_mirrors h hmeets hs
  | some row =>
    rw [hget] at hmeets hs
    have hupToDate : UpToDate admits m doc row createdAt := hmeets
    have hid : row.id = doc.id := Table.key_of_lookup hget
    have hadmitted := hupToDate.admitted
    rw [h.rows] at hadmitted
    simp only [hadmitted, not_true_eq_false, if_false] at hs
    obtain ⟨t, ht, he⟩ := Option.map_eq_some_iff.mp hs
    cases he
    have hsaved := hupToDate.saved_eq hid
    have hrows := Documents.rows_modify ht
    rw [h.get] at hget
    have hput : m.put { doc with classification := row.classification } createdAt =
        { m with storage := t.rows } := by
      have hupdate := Documents.update_eq_rewrite (f := doc.writeBack) hget hsaved
      simp only [InMemoryDocumentRepository.put]
      rw [hupToDate.createdAt, Function.update_eq_self, h.get, hget, Option.isSome_some,
        if_pos rfl, hrows, h.rows, hupdate]
    show Answer.document (t.get doc.id) =
        .document (some { doc with classification := row.classification }) ∧
      Mirrors now _ (m.put { doc with classification := row.classification } createdAt)
    rw [hput, Documents.modify_get_self ht hget, hsaved, ← hid]
    exact ⟨rfl, h.rewritten rfl (by rw [hrows, Documents.map_id_rewrite])⟩

theorem setClassification_mirrors (h : Mirrors now r m) {id : DocumentId} {c : Classification}
    (hs : r.setClassification id c = some (a, r')) :
    a = (m.setClassification id c).1 ∧ Mirrors now r' (m.setClassification id c).2 := by
  obtain ⟨rfl, hm⟩ := h.altered hs
  unfold InMemoryDocumentRepository.setClassification
  cases hget : m.get id with
  | none =>
    have hsame : m.alter id (fun d => { d with classification := some c }) = m := by
      rw [InMemoryDocumentRepository.alter, Documents.rewrite, Table.update_absent]
      intro d hd
      exact decide_eq_false (Table.lookup_eq_none_iff.mp hget d hd)
    rw [hsame] at hm
    rw [← hm.get, hget]
    exact ⟨rfl, hm⟩
  | some row =>
    rw [← hm.get]
    exact ⟨rfl, hm⟩

/-- A write that is made where the row allows it, and answered with whether it was. -/
theorem marked_mirrors (h : Mirrors now r m) {id : DocumentId} {f : Document → Document}
    {allowed refused : Prop} [Decidable allowed] [Decidable refused]
    (hrefused : refused ↔ ¬ allowed)
    (hs : (if allowed then r.saved (r.documents.modify id f) fun _ => .done true
      else some (.done false, r)) = some (a, r')) :
    a = (if refused then (.done false, m) else (.done true, m.alter id f)).1 ∧
      Mirrors now r'
        (if refused then (.done false, m) else (Answer.done true, m.alter id f)).2 := by
  by_cases hallowed : allowed
  · rw [if_pos hallowed] at hs
    rw [if_neg (by simpa [hrefused] using hallowed)]
    exact h.altered hs
  · rw [if_neg hallowed] at hs
    cases hs
    rw [if_pos (hrefused.mpr hallowed)]
    exact ⟨rfl, h⟩

theorem softDelete_mirrors (h : Mirrors now r m) {id : DocumentId}
    (hs : r.softDelete now id = some (a, r')) :
    a = (m.softDelete now id).1 ∧ Mirrors now r' (m.softDelete now id).2 := by
  unfold PostgreSQLDocumentRepository.softDelete at hs
  unfold InMemoryDocumentRepository.softDelete
  rw [← h.get] at hs
  cases hget : m.get id with
  | none =>
    rw [hget] at hs
    cases hs
    exact ⟨rfl, h⟩
  | some row =>
    rw [hget] at hs
    exact marked_mirrors h not_and_or.symm hs

theorem restore_mirrors (h : Mirrors now r m) {id : DocumentId}
    (hs : r.restore id = some (a, r')) :
    a = (m.restore id).1 ∧ Mirrors now r' (m.restore id).2 := by
  unfold PostgreSQLDocumentRepository.restore at hs
  unfold InMemoryDocumentRepository.restore
  rw [← h.get] at hs
  cases hget : m.get id with
  | none =>
    rw [hget] at hs
    cases hs
    exact ⟨rfl, h⟩
  | some row =>
    rw [hget] at hs
    exact marked_mirrors h (by rw [not_and_or, not_not]) hs

theorem purge_mirrors (h : Mirrors now r m) {id : DocumentId}
    (hs : r.purge now id = some (a, r')) :
    a = (m.purge now id).1 ∧ Mirrors now r' (m.purge now id).2 := by
  unfold PostgreSQLDocumentRepository.purge at hs
  unfold InMemoryDocumentRepository.purge
  rw [← h.get] at hs
  cases hget : m.get id with
  | none =>
    rw [hget] at hs
    cases hs
    exact ⟨rfl, h⟩
  | some row =>
    rw [hget] at hs
    exact marked_mirrors h Iff.rfl hs

theorem purgeDuplicatesOf_mirrors (h : Mirrors now r m) {checksum : Sha256}
    (hs : r.purgeDuplicatesOf now checksum = some (a, r')) :
    a = (m.purgeDuplicatesOf now checksum).1 ∧
      Mirrors now r' (m.purgeDuplicatesOf now checksum).2 := by
  obtain ⟨t, ht, he⟩ := Option.map_eq_some_iff.mp hs
  cases he
  have hrows := Documents.rows_modifyAll ht
  constructor
  · rw [InMemoryDocumentRepository.purgeDuplicatesOf, h.rows]
  · refine h.rewritten ?_ ?_
    · rw [hrows, h.rows]
      rfl
    · rw [hrows, Documents.map_id_update]

/-- The order in which memory has what a call lists. -/
def laid (m : InMemoryDocumentRepository) : RepositoryCall → List Document → List Document
  | .listDeleted _ _ _ => orderBy lastDeleted
  | .listPaginated _ _ _ _ => orderBy m.newest
  | _ => id

theorem lays (h : Mirrors now r m) (call : RepositoryCall) : r.Lays (laid m call) call := by
  cases call
  case listDeleted => exact orders_orderBy _ _
  case listPaginated limit offset viewerId viewerIsAdmin =>
    refine ⟨Ranking.orderBy_perm _ _, ?_⟩
    have hmem : ∀ d ∈ orderBy m.newest (r.listed viewerId viewerIsAdmin),
        d.id ∈ r.documents.rows.map Document.id := by
      intro d hd
      rw [(Ranking.orderBy_perm _ _).mem_iff] at hd
      exact List.mem_map_of_mem (List.mem_of_mem_filter hd)
    refine (Ranking.orderBy_pairwise m.newest _).imp_of_mem ?_
    intro d e hd he hle
    by_contra hlt
    have hearlier := h.newest d.id (hmem d hd) e.id (hmem e he) (not_le.mp hlt)
    exact absurd hle (not_le.mpr hearlier)
  all_goals trivial

theorem listDeleted_mirrors (h : Mirrors now r m) (viewerId : Option UserId)
    (viewerIsAdmin : Bool) (limit : Int) :
    r.listDeleted (orderBy lastDeleted) viewerId viewerIsAdmin limit =
      m.listDeleted viewerId viewerIsAdmin limit := by
  rw [InMemoryDocumentRepository.listDeleted, h.rows, PostgreSQLDocumentRepository.listDeleted]
  split
  · rename_i hanonymous
    have hnone : offeredBack r.documents.rows viewerId viewerIsAdmin = [] := by
      simp [offeredBack, hanonymous]
    simp [hnone, orderBy]
  · rfl

theorem listPaginated_mirrors (h : Mirrors now r m) (limit offset : Nat)
    (viewerId : Option UserId) (viewerIsAdmin : Bool) :
    Answer.page (r.listPaginated viewerId viewerIsAdmin (orderBy m.newest) limit offset).1
        (r.listPaginated viewerId viewerIsAdmin (orderBy m.newest) limit offset).2 =
      m.listPaginated limit offset viewerId viewerIsAdmin := by
  have hlisted : (m.storage.filter fun d => d.deletedAt = none &&
      canView d.classification d.ownerId viewerId viewerIsAdmin) =
      r.listed viewerId viewerIsAdmin := by
    simp only [h.rows, canView_eq, PostgreSQLDocumentRepository.listed]
  rw [InMemoryDocumentRepository.listPaginated, hlisted, PostgreSQLDocumentRepository.listPaginated,
    (Ranking.orderBy_perm _ _).length_eq]

variable (admits r now) in
theorem perform_snd (sort sort' : List Document → List Document) (call : RepositoryCall) :
    (r.perform admits now sort call).map Prod.snd =
      (r.perform admits now sort' call).map Prod.snd := by
  cases call <;> rfl

variable {p q : Repositories} {u : Use}

/-- A call that meets the condition is answered alike and leaves the two alike. -/
theorem perform_mirrors (h : Mirrors p.now p.database p.memory) (hmeets : Meets admits p u)
    (hs : p.database.perform admits (p.now + u.elapsed) (laid p.memory u.call) u.call =
      some (a, r')) :
    a = (p.memory.perform (p.now + u.elapsed) u.call).1 ∧
      Mirrors (p.now + u.elapsed) r' (p.memory.perform (p.now + u.elapsed) u.call).2 := by
  replace h := h.later (Nat.le_add_right p.now u.elapsed)
  obtain ⟨elapsed, sort, call⟩ := u
  cases call
  case create doc createdAt => exact create_mirrors h hmeets hs
  case getById id =>
    cases hs
    exact ⟨congrArg Answer.document (h.get id).symm, h⟩
  case getByChecksum checksum =>
    cases hs
    refine ⟨congrArg Answer.document ?_, h⟩
    rw [InMemoryDocumentRepository.getByChecksum, h.rows]
    rfl
  case updateDocument doc createdAt => exact updateDocument_mirrors h hmeets hs
  case setClassification id classification => exact setClassification_mirrors h hs
  case softDelete id => exact softDelete_mirrors h hs
  case restore id => exact restore_mirrors h hs
  case listDeleted viewerId viewerIsAdmin limit =>
    cases hs
    exact ⟨listDeleted_mirrors h viewerId viewerIsAdmin limit, h⟩
  case listPaginated limit offset viewerId viewerIsAdmin =>
    cases hs
    exact ⟨listPaginated_mirrors h limit offset viewerId viewerIsAdmin, h⟩
  case purge id => exact purge_mirrors h hs
  case purgeDuplicatesOf checksum => exact purgeDuplicatesOf_mirrors h hs

theorem step_mirrors (h : Mirrors p.now p.database p.memory) (hmeets : Meets admits p u)
    (hs : step admits p u = some q) : Mirrors q.now q.database q.memory := by
  obtain ⟨⟨a, r'⟩, hperform, rfl⟩ := Option.map_eq_some_iff.mp hs
  have hsnd := perform_snd admits p.database (p.now + u.elapsed) u.sort (laid p.memory u.call)
    u.call
  rw [hperform] at hsnd
  obtain ⟨⟨b, r''⟩, hlaid, rfl⟩ := Option.map_eq_some_iff.mp hsnd.symm
  exact (perform_mirrors h hmeets hlaid).2

theorem mirrors_empty : Mirrors empty.now empty.database empty.memory :=
  ⟨rfl, by simp [empty], by simp [empty]⟩

/-- The two answer every call of a run alike. -/
theorem runs_alike {us : List Use}
    (h : Transition.Runs (step admits) (Meets admits) empty us p) (hmeets : Meets admits p u) :
    Alike admits p u := by
  have hm := h.invariant (I := fun p => Mirrors p.now p.database p.memory)
    (fun _ _ _ hi hok hs => step_mirrors hi hok hs) mirrors_empty
  refine ⟨laid p.memory u.call, lays hm u.call, ?_⟩
  rintro ⟨a, r'⟩ hs
  exact (perform_mirrors hm hmeets hs).1

/-- Every row is admitted, and the calls come one tick apart. -/
def anyRow (_ : List Document) (_ : Document) : Bool := true

def asked (call : RepositoryCall) : Use := { elapsed := 1, sort := id, call }

def memo : Document := RetrievalService.openDocument

def removal : List Use := [asked (.create memo 1), asked (.softDelete 0)]

/-- A copy read after the removal, with a new title. -/
def retitled : Document := { memo with deletedAt := some 2, title := some "Memo" }

def retitling : List Use := removal ++ [asked (.updateDocument retitled 1)]

theorem retitling_alike :
    Alike anyRow (Transition.finalState (step anyRow) empty retitling)
      (asked (.listDeleted none true 100)) := by
  have hruns : Transition.Runs (step anyRow) (Meets anyRow) empty retitling
      (Transition.finalState (step anyRow) empty retitling) := by
    refine ⟨?_, _, rfl, trivial, _, rfl, ?_, _, rfl, rfl⟩
    · exact ⟨rfl, rfl, rfl, by decide, rfl, by simp [empty]⟩
    · exact ⟨rfl, rfl, rfl, rfl, rfl, rfl, rfl⟩
  exact runs_alike hruns trivial

/-- The copy that `get_by_id` gave before the removal, written back after it. -/
theorem stale_copy_undeletes :
    Transition.Runs (step anyRow) (fun _ _ => True) empty
      (removal ++ [asked (.updateDocument memo 1)])
      (Transition.finalState (step anyRow) empty (removal ++ [asked (.updateDocument memo 1)])) ∧
    (∀ p, step anyRow empty (asked (.create memo 1)) = some p →
      (p.memory.perform p.now (.getById 0)).1 = .document (some memo)) ∧
    ¬ Alike anyRow
      (Transition.finalState (step anyRow) empty (removal ++ [asked (.updateDocument memo 1)]))
      (asked (.getById 0)) := by
  refine ⟨Transition.runs_of_exec_free (by decide), ?_, ?_⟩
  · intro p hp
    cases hp
    rfl
  · rintro ⟨sort, -, hsame⟩
    have hgone := hsame _ rfl
    revert hgone
    decide

end Repositories

end KnowledgeBase
