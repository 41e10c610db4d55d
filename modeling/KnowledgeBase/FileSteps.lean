import KnowledgeBase.Shelf

/-! One step of the running connector as one file sees it: what becomes of its row and of
its shelf. -/

namespace KnowledgeBase

open Program DriveSyncService

theorem Worked.unversioned {stage : JobStage} {id : DocumentId} {r r' : Document}
    (h : Worked stage id r r') : Worked stage id r.unversioned r'.unversioned where
  id_eq := h.id_eq
  deletedAt := h.deletedAt
  purgedAt := h.purgedAt
  own := h.own
  other hne := by
    obtain ⟨hr, hc⟩ := h.other hne
    refine ⟨?_, hc⟩
    rw [hr]
    rfl

theorem Erased.unversioned {r r' : Document} (h : Erased r r') :
    Erased r.unversioned r'.unversioned := by
  rcases h with rfl | h
  · exact .refl _
  · exact .inr h

theorem shelf_row_id {s : DriveState} {f : FileId} {c : Copy} (hc : c ∈ s.shelf f) :
    c.row.id = c.id := by
  obtain ⟨-, r, hr, hrow⟩ := DriveState.mem_shelf.mp hc
  have hid : r.id = c.id := Documents.get_id hr
  rw [hrow]
  exact hid

/-- The copy an import adds. -/
def newCopy (cfg : DriveConfig) (id : DocumentId) (item : DriveFile) (tier : Classification)
    (data : Bytes) (mimeType : String) : Copy where
  version := { documentId := id, state := .pending }
  row := (importedDocument cfg id item tier data mimeType).unversioned

namespace Copy

def Relates (R : Document → Document → Prop) (c c' : Copy) : Prop :=
  c'.version = c.version ∧ R c.row c'.row

/-- The row of one document is rewritten. -/
def rewritten (id : DocumentId) (g : Document → Document) (c : Copy) : Copy :=
  if c.id = id then { c with row := g c.row } else c

end Copy

namespace SyncState

variable {sv : Services} {cfg : DriveConfig} {s t : SyncState} {a : SyncAction} {f : FileId}

/-- The file that is synced next, with its tier and folder. -/
def Next (s : SyncState) (e : Entry) : Prop :=
  ∃ listing limited items, s.pass = some { listing, limited, phase := .syncing (e :: items) }

/-- Everything an undisturbed step can mean for a file. -/
inductive FileStep (sv : Services) (cfg : DriveConfig) (f : FileId) (s : SyncState) :
    SyncAction → SyncState → Prop
  | aside (a : SyncAction) (t : SyncState) (hfile : t.store.file f = s.store.file f)
      (hshelf : t.store.shelf f = s.store.shelf f) : FileStep sv cfg f s a t
  | revisits (id : DocumentId) (fetched : Except Exn Bytes) (luck : Nat → DriveLuck)
      (item : DriveFile) (tier : Classification) (folderId : FolderId) (row : DriveFileRow)
      (t : SyncState) (hf : item.fileId = f) (hnext : s.Next (item, tier, folderId))
      (hk : known (s.store.file f) = some row) (hc : contentChanged row item = false)
      (hfile : t.store.file f = some (recorded s.store item .imported tier folderId none none))
      (hshelf : t.store.shelf f = (s.store.shelf f).revisit row tier) :
      FileStep sv cfg f s (.syncItem id fetched luck) t
  | passesOver (id : DocumentId) (fetched : Except Exn Bytes) (luck : Nat → DriveLuck)
      (item : DriveFile) (tier : Classification) (folderId : FolderId) (state : DriveFileState)
      (reason : String) (t : SyncState) (hf : item.fileId = f)
      (hnext : s.Next (item, tier, folderId))
      (hn : ∀ row, known (s.store.file f) = some row → contentChanged row item = true)
      (hstate : state = .skipped ∨ state = .failed)
      (hfile : t.store.file f =
        some (recorded s.store item state tier folderId none (some reason)))
      (hshelf : t.store.shelf f = s.store.shelf f) :
      FileStep sv cfg f s (.syncItem id fetched luck) t
  | imports (id : DocumentId) (fetched : Except Exn Bytes) (luck : Nat → DriveLuck)
      (item : DriveFile) (tier : Classification) (folderId : FolderId) (data : Bytes)
      (mimeType : String) (t : SyncState) (hf : item.fileId = f)
      (hnext : s.Next (item, tier, folderId)) (hfresh : s.store.doc id = none)
      (hn : ∀ row, known (s.store.file f) = some row → contentChanged row item = true)
      (hd : fetched = .ok data) (hm : cfg.detectFormat data = some mimeType)
      (hfile : t.store.file f =
        some (recorded s.store item .imported tier folderId (some id) none))
      (hshelf : t.store.shelf f = s.store.shelf f ++
        [newCopy cfg id item (importTier s.store (edited (s.store.file f)) tier) data mimeType]) :
      FileStep sv cfg f s (.syncItem id fetched luck) t
  | retires (listing : Listing) (limited : Bool) (files : List FileId) (row : DriveFileRow)
      (t : SyncState)
      (hp : s.pass = some { listing, limited, phase := .retiring (f :: files) })
      (hrow : s.store.file f = some row)
      (hfile : t.store.file f = some { row with
        state := .removed, skipReason := some "no longer in a watched Drive folder" })
      (hshelf : t.store.shelf f = (s.store.shelf f).retire s.store.world.now row) :
      FileStep sv cfg f s .retireFile t
  | reconciles (listing : Listing) (limited : Bool) (files : List FileId) (t : SyncState)
      (hp : s.pass = some { listing, limited, phase := .reconciling (f :: files) })
      (hfile : t.store.file f = s.store.file f)
      (hshelf : t.store.shelf f = (s.store.shelf f).reconcile s.store.world.now) :
      FileStep sv cfg f s .reconcileFile t
  | works (stage : JobStage) (id : DocumentId) (luck : Nat → Luck) (operations : Nat)
      (t : SyncState) (hfile : t.store.file f = s.store.file f)
      (hshelf : List.Forall₂ (Copy.Relates (Worked stage id)) (s.store.shelf f)
        (t.store.shelf f))
      (hidle : ∀ c ∈ s.store.shelf f, c.id = id → Idle stage c.row.status →
        t.store.shelf f = s.store.shelf f) :
      FileStep sv cfg f s (.stage stage id luck operations) t
  | classifies (id : DocumentId) (tier : Classification) (t : SyncState)
      (hfile : t.store.file f = s.store.file f)
      (hshelf : t.store.shelf f = (s.store.shelf f).map
        (Copy.rewritten id fun r => { r with classification := some tier })) :
      FileStep sv cfg f s (.classify id tier) t
  | restores (id : DocumentId) (t : SyncState) (hfile : t.store.file f = s.store.file f)
      (hshelf : t.store.shelf f = (s.store.shelf f).map (Copy.rewritten id Document.shown)) :
      FileStep sv cfg f s (.restoreInApp id) t
  | erases (id : DocumentId) (t : SyncState) (hfile : t.store.file f = s.store.file f)
      (hshelf : List.Forall₂ (Copy.Relates Erased) (s.store.shelf f) (t.store.shelf f)) :
      FileStep sv cfg f s (.erase id) t

/-- The one row another hand has been at. -/
structure Handled (id : DocumentId) (g : Document → Document) (s t : DriveState) : Prop where
  files : t.files = s.files
  versions : t.versions = s.versions
  docs : ∀ d, t.doc d = (s.doc d).map fun r => if d = id then g r else r

section Hands

variable {u v : DriveState} {id : DocumentId} {g : Document → Document}

theorem Handled.file (h : Handled id g u v) (f : FileId) : v.file f = u.file f := by
  rw [DriveState.file, h.files, DriveState.file]

theorem Handled.shelf (h : Handled id g u v) (hg : ∀ r, (g r).unversioned = g r.unversioned)
    (f : FileId) : v.shelf f = (u.shelf f).map (Copy.rewritten id g) := by
  have hmap : v.shelf f = (u.shelf f).map fun c =>
      { version := c.version, row := if c.id = id then g c.row else c.row } := by
    refine DriveState.shelf_map (g := fun v => v) (h := fun d r => if d = id then g r else r)
      (fun _ => rfl) (by rw [h.versions, List.map_id']) fun d _ => ?_
    rw [h.docs, Option.map_map, Option.map_map]
    cases u.doc d with
    | none => rfl
    | some r => by_cases hd : d = id <;> simp [hd, hg]
  rw [hmap]
  refine List.map_congr_left fun c _ => ?_
  by_cases hc : c.id = id <;> simp [Copy.rewritten, hc]

theorem classify_handled {tier : Classification} (h : classify u id tier = some v) :
    Handled id (fun r => { r with classification := some tier }) u v := by
  unfold classify at h
  split at h
  · cases h
  · split at h
    · cases h
    · obtain rfl := Option.some.inj h
      exact ⟨rfl, rfl, fun d => setClassification_docs id d tier⟩

theorem restoreInApp_handled (h : restoreInApp u id = some v) :
    Handled id Document.shown u v := by
  unfold restoreInApp at h
  split at h
  · cases h
  · split at h
    · cases h
    · obtain rfl := Option.some.inj h
      exact ⟨rfl, rfl, fun d => restore_docs id d⟩

theorem erase_rows (h : erase u id = some v) :
    v.files = u.files ∧ v.versions = u.versions ∧ RowsRelate Erased u.world v.world := by
  unfold erase at h
  split at h
  · cases h
  · split at h
    · cases h
    · obtain rfl := Option.some.inj h
      exact ⟨rfl, rfl, eraseDocument_erased _ _⟩

end Hands

theorem fileStep_of_synced {id : DocumentId} {fetched : Except Exn Bytes}
    {luck : Nat → DriveLuck} {item : DriveFile} {tier : Classification} {folderId : FolderId}
    (hs : Tracked s.store) (hnext : s.Next (item, tier, folderId))
    (hfresh : s.store.doc id = none)
    (h : Synced cfg id fetched item tier folderId s.store t.store) :
    FileStep sv cfg item.fileId s (.syncItem id fetched luck) t := by
  generalize hu : t.store = u at h
  cases h with
  | unchanged row v hk hc hv =>
    refine .revisits id fetched luck item tier folderId row t rfl hnext hk hc ?_ ?_
    · rw [hu, DriveState.putFile_file, if_pos rfl]
    · rw [hu]
      exact revisit_shelf hs hv
  | passedOver state reason hn hst =>
    refine .passesOver id fetched luck item tier folderId state reason t rfl hnext hn hst ?_ ?_
    · rw [hu, DriveState.putFile_file, if_pos rfl]
    · rw [hu]
      rfl
  | imported data mimeType w hn hd hm hobjects hdocs =>
    refine .imports id fetched luck item tier folderId data mimeType t rfl hnext hfresh hn hd hm
      ?_ ?_
    · rw [hu, DriveState.putVersions_file, DriveState.putFile_file, if_pos rfl]
    · rw [hu]
      refine DriveState.shelf_of ?_ fun c hc => ?_
      · rw [DriveState.putVersions_versions, Shelf.versions, List.map_append]
        have hv := DriveState.shelf_versions hs item.fileId
        rw [Shelf.versions] at hv
        rw [hv]
        rfl
      · show ∃ r, w.doc c.id = some r ∧ c.row = r.unversioned
        rcases List.mem_append.mp hc with hc | hc
        · obtain ⟨hver, r, hr, hrow⟩ := DriveState.mem_shelf.mp hc
          have hne : c.id ≠ id := fun he =>
            hs.fresh_ids hfresh item.fileId (he ▸ List.mem_map_of_mem hver)
          exact ⟨r, by rw [hdocs, if_neg hne]; exact hr, hrow⟩
        · obtain rfl := List.mem_singleton.mp hc
          exact ⟨_, by rw [hdocs]; exact if_pos rfl, rfl⟩

/-- What one step means for one file. -/
theorem fileStep_of_cases (hs : Tracked s.store) (h : StepCases sv cfg s a t) (f : FileId) :
    FileStep sv cfg f s a t := by
  have haside : ∀ {b : SyncAction} {u : SyncState}, Aside f s.store u.store →
      FileStep sv cfg f s b u :=
    fun ha => .aside _ _ ha.file (DriveState.shelf_eq ha.versions ha.docs)
  cases h with
  | begins | turnsToGone | turnsToPending | finishes => exact haside (.refl f _)
  | syncs id fetched luck listing limited item tier folderId items store hp hfresh h =>
    by_cases hf : f = item.fileId
    · subst hf
      exact fileStep_of_synced hs ⟨listing, limited, items, hp⟩ hfresh h
    · exact haside (hs.synced_aside hfresh h hf)
  | retires listing limited g files hp =>
    by_cases hf : f = g
    · subst hf
      cases hrow : s.store.file f with
      | none =>
        have hsame : DriveSyncService.retireFile s.store f = s.store := by
          rw [DriveSyncService.retireFile, hrow]
        refine haside ?_
        dsimp only
        rw [hsame]
        exact .refl f _
      | some row =>
        refine .retires listing limited files row _ hp hrow ?_ (retire_shelf hs hrow)
        obtain ⟨w, -, -, ht⟩ := retireFile_spec hrow
        dsimp only
        rw [ht, DriveState.putFile_file, if_pos rfl]
    · exact haside (hs.retire_aside hf)
  | reconciles listing limited g files hp =>
    have hspec := reconcileFile_spec sv s.store g
    by_cases hf : f = g
    · subst hf
      refine .reconciles listing limited files _ hp ?_ (reconcile_shelf hs)
      dsimp only
      generalize DriveSyncService.reconcileFile sv s.store f = u at hspec ⊢
      cases hspec <;> rfl
    · exact haside (hs.reconcile_aside hspec hf)
  | works stage id luck operations w h =>
    obtain ⟨hrows, hidle⟩ := stage_rows h
    refine .works stage id luck operations _ rfl ?_ fun c hc hid hi => ?_
    · exact DriveState.shelf_relate (fun _ _ hw => hw.unversioned) rfl hrows
    · obtain ⟨-, r, hr, hrow⟩ := DriveState.mem_shelf.mp hc
      subst hid
      have hst : Idle stage r.status := by
        rw [hrow] at hi
        exact hi
      have hw : w = s.store.world := hidle r hr hst
      rw [hw]
  | classifies id tier store h =>
    have hh := classify_handled h
    exact .classifies id tier _ (hh.file f) (hh.shelf (fun _ => rfl) f)
  | restores id store h =>
    have hh := restoreInApp_handled h
    exact .restores id _ (hh.file f) (hh.shelf Document.shown_unversioned f)
  | erases id store h =>
    obtain ⟨hfiles, hversions, hrows⟩ := erase_rows h
    have hfile : store.file f = s.store.file f := by
      rw [DriveState.file, hfiles, DriveState.file]
    exact .erases id _ hfile (DriveState.shelf_relate (fun _ _ he => he.unversioned)
      (congrFun hversions f) hrows)

/-- The rows of the versions stay in order. -/
theorem tracked_of_step (hs : Tracked s.store) (h : StepCases sv cfg s a t) :
    Tracked t.store := by
  have hhand : ∀ {id : DocumentId} {g : Document → Document} {u : DriveState},
      Handled id g s.store u → Tracked u := by
    intro id g u hu
    refine hs.same (hu.files ▸ hs.keys) (fun f => ?_) (fun f => ?_) fun d hd => ?_
    · rw [hu.file]
    · rw [DriveState.ids, hu.versions, DriveState.ids]
    · rw [hu.docs d]
      simpa using hd
  cases h with
  | begins | turnsToGone | turnsToPending | finishes => exact hs
  | syncs id fetched luck listing limited item tier folderId items store hp hfresh h =>
    exact hs.of_synced hfresh h
  | retires listing limited g files hp => exact hs.of_retireFile g
  | reconciles listing limited g files hp =>
    exact hs.of_reconciled (reconcileFile_spec sv s.store g)
  | works stage id luck operations w h =>
    exact hs.worldly fun d hd => (stage_rows h).1.kept hd
  | classifies id tier store h => exact hhand (classify_handled h)
  | restores id store h => exact hhand (restoreInApp_handled h)
  | erases id store h =>
    obtain ⟨hfiles, hversions, hrows⟩ := erase_rows h
    refine hs.same (hfiles ▸ hs.keys) (fun f => by rw [DriveState.file, hfiles, DriveState.file])
      (fun f => by rw [DriveState.ids, hversions, DriveState.ids]) fun d hd => hrows.kept hd

theorem Fresh.tracked (h : s.Fresh) : Tracked s.store where
  keys := by rw [h.files]; exact List.nodup_nil
  latest f := by
    rw [DriveState.file, DriveState.ids, h.files, h.versions f]
    rfl
  known f d hd := by
    rw [DriveState.ids, h.versions f] at hd
    cases hd
  own f g d hd := by
    rw [DriveState.ids, h.versions f] at hd
    cases hd
  nodup f := by
    rw [DriveState.ids, h.versions f]
    exact List.nodup_nil

theorem Fresh.shelf (h : s.Fresh) (f : FileId) : s.store.shelf f = [] := by
  rw [DriveState.shelf, h.versions f]
  rfl

end SyncState

end KnowledgeBase
