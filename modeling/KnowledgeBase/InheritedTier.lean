import KnowledgeBase.Reconciling

/-! The tier an edited file's new content is imported at, while the file stays in its folder
and people change tiers by hand. -/

namespace KnowledgeBase

open Program DriveSyncService

/-- The file is listed in this folder, at the folder's tier. -/
def SyncAction.KeepsIn (f : FileId) (tier : Classification) (folderId : FolderId) :
    SyncAction → Prop
  | .syncOnce listing _ => ∃ item, (f, (item, tier, folderId)) ∈ listing.found
  | _ => True

/-- The database and the storage may do as they like. -/
def Driven (sv : Services) (fetched : Except Exn Bytes) :
    Program.Acts DriveOp DriveOp.Resp Exn DriveState :=
  fun op s r s' => ∃ c, driveEffect sv fetched c op s = (r, s')

namespace DriveSyncService

variable {s : DriveState} {row : DriveFileRow} {tier : Classification}

def LastRestricted (s : DriveState) (row : DriveFileRow) : Prop :=
  ∃ d ∈ row.documentId, ∃ r ∈ s.doc d, r.classification = some .restricted

theorem stricter_of_public (earlier : Classification) :
    (if isStricter (some earlier) (some .public) then earlier else .public) = earlier := by
  cases earlier <;> rfl

theorem inherited_restricted (hrow : row.classification = some tier) :
    inherited s row tier = .restricted ↔ tier = .restricted ∨ LastRestricted s row := by
  have hsame : ¬ row.classification ≠ some tier := not_not.mpr hrow
  unfold inherited
  rw [if_neg hsame]
  cases htier : tier with
  | restricted =>
    generalize (row.documentId.bind s.doc).bind Document.classification = o
    rcases o with _ | _ | _ <;> simp [isStricter, tierRank]
  | «public» =>
    cases hd : row.documentId with
    | none => simp [LastRestricted, hd]
    | some d =>
      cases hr : s.doc d with
      | none => simp [LastRestricted, hd, hr]
      | some r =>
        cases hc : r.classification with
        | none => simp [LastRestricted, hd, hr, hc]
        | some earlier =>
          simp only [Option.bind_some, hr, hc, stricter_of_public]
          simp [LastRestricted, hd, hr, hc]

/-- What the tier of new content comes to, where the row remembers the folder's tier. -/
theorem importTier_restricted {f : FileId}
    (hrow : ∀ row, s.file f = some row → row.classification = some tier) :
    importTier s (edited (s.file f)) tier = .restricted ↔
      tier = .restricted ∨
        ∃ row ∈ s.file f, row.state = .imported ∧ LastRestricted s row := by
  have hplain : (∀ row ∈ s.file f, row.state = .imported → ¬ LastRestricted s row) →
      (tier = .restricted ↔ tier = .restricted ∨
        ∃ row ∈ s.file f, row.state = .imported ∧ LastRestricted s row) := by
    intro hnone
    refine ⟨.inl, fun h => h.elim id ?_⟩
    rintro ⟨row, hr, hi, hl⟩
    exact absurd hl (hnone row hr hi)
  cases he : edited (s.file f) with
  | none =>
    refine hplain fun row hr hi hl => ?_
    obtain ⟨d, hd, -⟩ := hl
    have hfile : s.file f = some row := hr
    have hid : row.documentId = some d := hd
    simp [edited, known, hfile, hid, hi] at he
  | some row =>
    obtain ⟨hk, hi⟩ := Option.filter_eq_some_iff.mp he
    have hfile := (SyncState.known_row hk).1
    have hi' : row.state = .imported := of_decide_eq_true hi
    show inherited s row tier = .restricted ↔ _
    rw [inherited_restricted (hrow row hfile), hfile]
    simp [hi']

end DriveSyncService

/-- New content of the file is at least as strict as every document of the file that is seen. -/
def NoLessStrict (s t : DriveState) (f : FileId) (id : DocumentId) : Prop :=
  ∀ d ∈ s.ids f, s.Visible d → ∀ r ∈ s.doc d, ∀ r' ∈ t.doc id,
    isStricter r.classification r'.classification = false

instance (s t : DriveState) (f : FileId) (id : DocumentId) : Decidable (NoLessStrict s t f id) := by
  unfold NoLessStrict
  infer_instance

/-- No document of the file that is seen is RESTRICTED. -/
def NothingRaised (s : DriveState) (f : FileId) : Prop :=
  ∀ d ∈ s.ids f, s.Visible d → ∀ r ∈ s.doc d, r.classification ≠ some .restricted

/-- The file's row is IMPORTED, and the document imported last is RESTRICTED. -/
def RaisedLast (s : DriveState) (f : FileId) : Prop :=
  ∃ row ∈ s.file f, row.state = .imported ∧ LastRestricted s row

namespace SyncState

variable {sv : Services} {cfg : DriveConfig} {s t u : SyncState} {a : SyncAction} {f : FileId}
  {tier : Classification} {folderId : FolderId} {id : DocumentId}

/-- What the file's row and the rest of the pass say of its folder. -/
structure Stays (f : FileId) (tier : Classification) (s : SyncState) : Prop where
  row : ∀ row, s.store.file f = some row → row.classification = some tier
  rest : ∀ p items, s.pass = some p → p.phase = .syncing items →
    ∀ e ∈ items, e.1.fileId = f → e.2.1 = tier

theorem listed_once {listing : Listing} {item : DriveFile}
    (hf : (f, (item, tier, folderId)) ∈ listing.found) (limit : Option Nat) :
    ∀ e ∈ listing.items limit, e.1.fileId = f → e.2.1 = tier := by
  intro e he hid
  have hsorted : e ∈ (listing.found.map Prod.snd).insertionSort fun a b => a.1.name ≤ b.1.name := by
    unfold Listing.items at he
    cases limit with
    | none => exact he
    | some n => exact List.mem_of_mem_take he
  obtain ⟨⟨g, e'⟩, hg, he'⟩ := List.mem_map.mp ((List.mem_insertionSort _).mp hsorted)
  obtain rfl : e' = e := he'
  have hnamed : e'.1.fileId = g := listing.named _ hg
  have hfg : f = g := hid.symm.trans hnamed
  subst hfg
  have hsame := List.inj_on_of_nodup_map listing.keys hg hf rfl
  have he'' : e' = (item, tier, folderId) := (Prod.mk.inj hsame).2
  rw [he'']

/-- One operation of a sync that writes the rows of its own file only. -/
theorem row_of_driveEffect {g : FileId} {tier' : Classification} {fetched : Except Exn Bytes}
    (hg : g = f → tier' = tier) {op : DriveOp} (hop : Files g tier' op) (c : DriveLuck)
    (w : DriveState) (h : ∀ row, w.file f = some row → row.classification = some tier) :
    ∀ row, (driveEffect sv fetched c op w).2.file f = some row →
      row.classification = some tier := by
  rcases c with ⟨storage, _ | e⟩
  · cases op
    case putFile k row' =>
      obtain ⟨rfl, hc⟩ := hop
      intro row hrow
      have hput : (w.putFile k row').file f = some row := hrow
      rw [DriveState.putFile_file] at hput
      split at hput
      · rename_i hk
        obtain rfl := Option.some.inj hput
        rw [hc, hg hk.symm]
      · exact h row hput
    all_goals exact h
  · cases op <;> exact h

theorem row_of_driven {g : FileId} {tier' : Classification} {fetched : Except Exn Bytes}
    (hg : g = f → tier' = tier) {op : DriveOp} {w w' : DriveState} {r : Except Exn op.Resp}
    (hop : Files g tier' op) (ha : Driven sv fetched op w r w')
    (h : ∀ row, w.file f = some row → row.classification = some tier) :
    ∀ row, w'.file f = some row → row.classification = some tier := by
  obtain ⟨c, hc⟩ := ha
  have hw' : w' = (driveEffect sv fetched c op w).2 := by rw [hc]
  rw [hw']
  exact row_of_driveEffect hg hop c w h

theorem rest_of_syncing {listing : Listing} {limited : Bool} {item : DriveFile}
    {tier' : Classification} {folder : FolderId} {items : List Entry} (hs : Stays f tier s)
    (hp : s.pass = some
      { listing, limited, phase := .syncing ((item, tier', folder) :: items) }) :
    item.fileId = f → tier' = tier := fun hf =>
  hs.rest _ _ hp rfl (item, tier', folder) (by simp) hf

theorem stays_of_step (hs : Stays f tier s) (ha : a.KeepsIn f tier folderId)
    (h : step sv cfg s a = some t) : Stays f tier t := by
  have hsame : t.store.file f = s.store.file f → (∀ p items, t.pass = some p →
      p.phase = .syncing items → ∀ e ∈ items, e.1.fileId = f → e.2.1 = tier) →
      Stays f tier t := by
    intro hfile hrest
    exact ⟨fun row hrow => hs.row row (hfile ▸ hrow), hrest⟩
  cases a with
  | syncOnce listing limit =>
    obtain ⟨item, hlisted⟩ := ha
    simp only [step] at h
    split at h
    · obtain rfl := Option.some.inj h
      refine hsame rfl fun p items hp hphase e he => ?_
      obtain rfl := Option.some.inj hp
      obtain rfl := Phase.syncing.inj hphase
      exact listed_once hlisted limit e he
    · cases h
  | syncItem id fetched luck =>
    simp only [step] at h
    split at h
    · rename_i listing limited item tier' folder items hp
      split at h
      · have hends : Ends (Driven sv fetched) (DriveSyncService.syncItem cfg id item tier' folder)
            s.store (run (driveEffect sv fetched) luck
              (DriveSyncService.syncItem cfg id item tier' folder) s.store).1
            (run (driveEffect sv fetched) luck
              (DriveSyncService.syncItem cfg id item tier' folder) s.store).2 :=
          ends_run (fun n _ _ => ⟨luck n, rfl⟩) _ _
        have hrow := hends.invariant syncItem_files
          (fun _ _ _ _ => row_of_driven (rest_of_syncing hs hp)) hs.row
        split at h
        · rename_i hrun
          obtain rfl := Option.some.inj h
          rw [hrun] at hrow
          refine ⟨hrow, fun p items' hp' hphase e he => ?_⟩
          obtain rfl := Option.some.inj hp'
          obtain rfl := Phase.syncing.inj hphase
          exact hs.rest _ _ hp rfl e (List.mem_cons_of_mem _ he)
        · rename_i hrun
          obtain rfl := Option.some.inj h
          rw [hrun] at hrow
          exact ⟨hrow, fun p items' hp' => by cases hp'⟩
      · cases h
    · cases h
  | dieInItem id fetched luck operations =>
    simp only [step] at h
    split at h
    · rename_i listing limited item tier' folder items hp
      split at h
      · have hvisits : Visits (Driven sv fetched)
            (DriveSyncService.syncItem cfg id item tier' folder) s.store
            (after (driveEffect sv fetched) luck operations
              (DriveSyncService.syncItem cfg id item tier' folder) s.store).2 :=
          visits_after (fun n _ _ => ⟨luck n, rfl⟩) operations _ _
        have hrow := hvisits.invariant syncItem_files
          (fun _ _ _ _ => row_of_driven (rest_of_syncing hs hp)) hs.row
        obtain rfl := Option.some.inj h
        exact ⟨hrow, fun p items' hp' => by cases hp'⟩
      · cases h
    · cases h
  | stage stage id luck operations =>
    obtain rfl := Option.some.inj h
    exact hsame rfl hs.rest
  | classify id tier' =>
    obtain ⟨store, hc, rfl⟩ := Option.map_eq_some_iff.mp h
    exact hsame ((classify_handled hc).file f) hs.rest
  | restoreInApp id =>
    obtain ⟨store, hr, rfl⟩ := Option.map_eq_some_iff.mp h
    exact hsame ((restoreInApp_handled hr).file f) hs.rest
  | erase id =>
    obtain ⟨store, he, rfl⟩ := Option.map_eq_some_iff.mp h
    obtain ⟨hfiles, -, -⟩ := erase_rows he
    refine hsame ?_ hs.rest
    rw [DriveState.file, hfiles, DriveState.file]
  | nextPhase =>
    simp only [step] at h
    split at h
    · obtain rfl := Option.some.inj h
      refine hsame rfl fun p items hp hphase => ?_
      obtain rfl := Option.some.inj hp
      cases hphase
    · obtain rfl := Option.some.inj h
      refine hsame rfl fun p items hp hphase => ?_
      obtain rfl := Option.some.inj hp
      cases hphase
    · cases h
  | finish =>
    simp only [step] at h
    split at h
    · obtain rfl := Option.some.inj h
      exact hsame rfl fun p items hp => by cases hp
    · cases h
  | retireFile =>
    simp only [step] at h
    split at h
    · rename_i listing limited g files hp
      obtain rfl := Option.some.inj h
      refine ⟨fun row hrow => ?_, fun p items hp' hphase => ?_⟩
      · have hrow' : (DriveSyncService.retireFile s.store g).file f = some row := hrow
        cases hold : s.store.file g with
        | none =>
          rw [DriveSyncService.retireFile, hold] at hrow'
          exact hs.row row hrow'
        | some old =>
          obtain ⟨w, -, -, ht⟩ := retireFile_spec hold
          rw [ht, DriveState.putFile_file] at hrow'
          split at hrow'
          · rename_i hfg
            obtain rfl := Option.some.inj hrow'
            exact hs.row old (hfg ▸ hold)
          · exact hs.row row hrow'
      · obtain rfl := Option.some.inj hp'
        cases hphase
    · cases h
  | reconcileFile =>
    simp only [step] at h
    split at h
    · rename_i listing limited g files hp
      obtain rfl := Option.some.inj h
      have hspec := reconcileFile_spec sv s.store g
      have hfile : (DriveSyncService.reconcileFile sv s.store g).file f = s.store.file f := by
        generalize DriveSyncService.reconcileFile sv s.store g = w at hspec ⊢
        cases hspec <;> rfl
      refine hsame hfile fun p items hp' hphase => ?_
      obtain rfl := Option.some.inj hp'
      cases hphase
    · cases h

theorem Fresh.stays (h : s.Fresh) (f : FileId) (tier : Classification) : Stays f tier s where
  row row hrow := by
    rw [DriveState.file, h.files] at hrow
    cases hrow
  rest p items hp := by
    rw [h.pass] at hp
    cases hp

theorem noLessStrict_iff {N : Classification} {r' : Document} {v w : DriveState}
    (hdoc : w.doc id = some r') (hc : r'.classification = some N) :
    NoLessStrict v w f id ↔ N = .restricted ∨ NothingRaised v f := by
  constructor
  · intro h
    by_cases hN : N = .restricted
    · exact .inl hN
    · right
      intro d hd hvis r hr hraised
      have hstrict := h d hd hvis r hr r' hdoc
      rw [hraised, hc] at hstrict
      cases N with
      | restricted => exact hN rfl
      | «public» => cases hstrict
  · intro h d hd hvis r hr r'' hr''
    obtain rfl := Option.some.inj (hdoc.symm.trans hr'')
    rw [hc]
    rcases h with rfl | h
    · rcases r.classification with _ | _ | _ <;> rfl
    · have hne := h d hd hvis r hr
      rcases hrc : r.classification with _ | _ | _
      · cases N <;> rfl
      · cases N <;> rfl
      · exact absurd hrc hne

/-- Imported and live, and then raised by hand. -/
def raisedByHand : List SyncAction :=
  fullPass (editions "1") [syncing 0 [37]] 0 1 ++ [.finish] ++ pipeline 0 ++
    [.classify 0 .restricted]

/-- An edit too large to take, and then one that is not. -/
def raisedThenSkipped : List SyncAction :=
  raisedByHand ++
    fullPass (.of [(memoFile "f" "2" 5000, .public, "root")] (by simp)) [syncing 1 [38]] 0 1 ++
    [.finish, .syncOnce (editions "3") none]

/-- The edit comes right after. -/
def raisedThenEdited : List SyncAction := raisedByHand ++ [.syncOnce (editions "2") none]

def raisedState : SyncState :=
  Transition.finalState (step tellingServices plainDrive) start raisedThenEdited

def editedState : SyncState :=
  Transition.finalState (step tellingServices plainDrive) start
    (raisedThenEdited ++ [syncing 1 [38]])

end SyncState

end KnowledgeBase
