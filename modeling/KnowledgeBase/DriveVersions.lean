import KnowledgeBase.DriveHistory
import KnowledgeBase.StageRows

/-! The rows of the versions along a history: they name documents that exist, each in one
row only, the last row names the document imported last, and a step deals with one file
and leaves the others as they were. -/

namespace KnowledgeBase

open Program

namespace DriveState

/-- The documents a file has become, in the order of the imports. -/
def ids (s : DriveState) (f : FileId) : List DocumentId :=
  (s.versions f).map FileVersion.documentId

@[simp] theorem putFile_file (s : DriveState) (f g : FileId) (row : DriveFileRow) :
    (s.putFile f row).file g = if g = f then some row else s.file g :=
  Table.get_put s.files f g row

@[simp] theorem putFile_versions (s : DriveState) (f : FileId) (row : DriveFileRow) :
    (s.putFile f row).versions = s.versions := rfl

@[simp] theorem putFile_doc (s : DriveState) (f : FileId) (row : DriveFileRow)
    (d : DocumentId) : (s.putFile f row).doc d = s.doc d := rfl

@[simp] theorem putVersions_file (s : DriveState) (f g : FileId) (vs : List FileVersion) :
    (s.putVersions f vs).file g = s.file g := rfl

@[simp] theorem putVersions_doc (s : DriveState) (f : FileId) (vs : List FileVersion)
    (d : DocumentId) : (s.putVersions f vs).doc d = s.doc d := rfl

theorem putVersions_other (s : DriveState) {f g : FileId} (hg : g ≠ f)
    (vs : List FileVersion) : (s.putVersions f vs).versions g = s.versions g := by
  simp [putVersions, hg]

end DriveState

namespace FileVersion

/-- The state of a version may change, its document never does. -/
theorem ids_map {g : FileVersion → FileVersion} (hg : ∀ v, (g v).documentId = v.documentId)
    (vs : List FileVersion) :
    (vs.map g).map FileVersion.documentId = vs.map FileVersion.documentId := by
  rw [List.map_map]
  exact List.map_congr_left fun v _ => hg v

@[simp] theorem marked_documentId (d : DocumentId) (state : VersionState) (v : FileVersion) :
    (v.marked d state).documentId = v.documentId := by
  unfold marked
  split <;> rfl

@[simp] theorem retired_documentId (state : VersionState) (v : FileVersion) :
    (v.retired state).documentId = v.documentId := by
  unfold retired
  split <;> rfl

@[simp] theorem settled_documentId (w : World) (v : FileVersion) :
    (DriveSyncService.settled w v).documentId = v.documentId := by
  unfold DriveSyncService.settled
  split
  · rfl
  · split
    · rfl
    · split
      · rfl
      · split <;> rfl

end FileVersion

open DriveSyncService

theorem afterReturn_ids (vs : List FileVersion) (row : DriveFileRow) :
    (afterReturn vs row).map FileVersion.documentId = vs.map FileVersion.documentId := by
  unfold afterReturn returnedVersions
  split
  · cases lastRemoved vs with
    | none => rfl
    | some v => exact FileVersion.ids_map (fun u => by simp) vs
  · rfl

structure Tracked (s : DriveState) : Prop where
  keys : (s.files.map Prod.fst).Nodup
  latest : ∀ f, (s.file f).bind DriveFileRow.documentId = (s.ids f).getLast?
  known : ∀ f, ∀ d ∈ s.ids f, s.doc d ≠ none
  own : ∀ f g d, d ∈ s.ids f → d ∈ s.ids g → f = g
  nodup : ∀ f, (s.ids f).Nodup

namespace Tracked

variable {s t : DriveState} {f : FileId}

theorem mem_vanished (hs : Tracked s) {found : List FileId} :
    f ∈ vanished s found ↔ ∃ row, s.file f = some row ∧ row.state = .imported ∧ f ∉ found := by
  simp only [vanished, List.mem_map, List.mem_filter, Bool.and_eq_true, decide_eq_true_eq,
    Bool.not_eq_true', List.contains_eq_mem, decide_eq_false_iff_not]
  constructor
  · rintro ⟨⟨g, row⟩, ⟨hm, hi, hn⟩, rfl⟩
    exact ⟨row, (Table.mem_iff_get hs.keys).mp hm, hi, hn⟩
  · rintro ⟨row, hrow, hi, hn⟩
    exact ⟨(f, row), ⟨(Table.mem_iff_get hs.keys).mpr hrow, hi, hn⟩, rfl⟩

/-- A file with a version has a row. -/
theorem file_of_ids (hs : Tracked s) (hne : s.ids f ≠ []) : ∃ row, s.file f = some row := by
  cases hrow : s.file f with
  | some row => exact ⟨row, rfl⟩
  | none =>
    have hl := hs.latest f
    rw [hrow] at hl
    exact absurd (List.getLast?_eq_none_iff.mp hl.symm) hne

theorem same (hs : Tracked s) (hkeys : (t.files.map Prod.fst).Nodup)
    (hfile : ∀ f, (t.file f).bind DriveFileRow.documentId =
      (s.file f).bind DriveFileRow.documentId)
    (hids : ∀ f, t.ids f = s.ids f) (hdocs : ∀ d, s.doc d ≠ none → t.doc d ≠ none) :
    Tracked t where
  keys := hkeys
  latest f := by rw [hfile f, hids f, hs.latest f]
  known f d hd := hdocs d (hs.known f d (hids f ▸ hd))
  own f g d hd hd' := hs.own f g d (hids f ▸ hd) (hids g ▸ hd')
  nodup f := hids f ▸ hs.nodup f

/-- Only the world has changed, and no row is gone. -/
theorem worldly (hs : Tracked s) {w : World} (hdocs : ∀ d, s.doc d ≠ none → w.doc d ≠ none) :
    Tracked { s with world := w } :=
  hs.same hs.keys (fun _ => rfl) (fun _ => rfl) hdocs

theorem fresh_ids (hs : Tracked s) {id : DocumentId} (hfresh : s.doc id = none) (g : FileId) :
    id ∉ s.ids g := fun hm => hs.known g id hm hfresh

end Tracked

section Steps

variable {sv : Services} {cfg : DriveConfig} {id : DocumentId} {fetched : Except Exn Bytes}
  {item : DriveFile} {tier : Classification} {folderId : FolderId} {s t : DriveState}
  {f : FileId}

theorem recorded_documentId (s : DriveState) (item : DriveFile) (state : DriveFileState)
    (tier : Classification) (folderId : FolderId) (reason : Option String) :
    (recorded s item state tier folderId none reason).documentId =
      (s.file item.fileId).bind DriveFileRow.documentId := by
  simp [recorded]

theorem Tracked.of_synced (hs : Tracked s) (hfresh : s.doc id = none)
    (h : Synced cfg id fetched item tier folderId s t) : Tracked t := by
  cases h with
  | unchanged row u hk hc hu =>
    have hufile : ∀ g, u.file g = s.file g := fun g => by
      rw [DriveState.file, hu.files, ← DriveState.file]
    refine hs.same ?_ (fun g => ?_) (fun g => ?_) fun d hd => ?_
    · have hfiles : ((u.putVersions item.fileId
          (afterReturn (s.versions item.fileId) row)).files.map Prod.fst).Nodup := by
        show (u.files.map Prod.fst).Nodup
        rw [hu.files]
        exact hs.keys
      exact Table.nodup_put hfiles _ _
    · rw [DriveState.putFile_file, DriveState.putVersions_file, hufile g]
      split
      · rename_i hg
        rw [Option.bind_some, recorded_documentId, hg]
      · rfl
    · by_cases hg : g = item.fileId
      · subst hg
        simp only [DriveState.ids, DriveState.putFile_versions, DriveState.putVersions_versions]
        exact afterReturn_ids _ _
      · simp only [DriveState.ids, DriveState.putFile_versions]
        rw [DriveState.putVersions_other _ hg, hu.versions]
    · rw [DriveState.putFile_doc, DriveState.putVersions_doc, hu.docs]
      simpa using hd
  | passedOver state reason hn hst =>
    refine hs.same (Table.nodup_put hs.keys _ _) (fun g => ?_) (fun _ => rfl) fun _ hd => hd
    rw [DriveState.putFile_file]
    split
    · rename_i hg
      rw [Option.bind_some, recorded_documentId, hg]
    · rfl
  | imported data mimeType w hn hd hm hobjects hdocs =>
    have hids : ∀ g, DriveState.ids ((({ s with world := w } : DriveState).putFile item.fileId
        (recorded s item .imported tier folderId (some id) none)).putVersions item.fileId
          (s.versions item.fileId ++ [{ documentId := id, state := .pending }])) g =
        if g = item.fileId then s.ids g ++ [id] else s.ids g := by
      intro g
      split
      · rename_i hg
        subst hg
        simp [DriveState.ids]
      · rename_i hg
        simp only [DriveState.ids]
        rw [DriveState.putVersions_other _ hg]
        rfl
    have hnew := hs.fresh_ids hfresh
    refine ⟨Table.nodup_put hs.keys _ _, fun g => ?_, fun g d hd => ?_, fun g g' d hd hd' => ?_,
      fun g => ?_⟩
    · rw [hids g, DriveState.putVersions_file, DriveState.putFile_file]
      split
      · simp [recorded]
      · exact hs.latest g
    · rw [hids g] at hd
      show w.doc d ≠ none
      rw [hdocs d]
      split
      · exact Option.some_ne_none _
      · rename_i hne
        refine hs.known g d ?_
        split at hd
        · simpa [hne] using hd
        · exact hd
    · rw [hids g] at hd
      rw [hids g'] at hd'
      by_cases hdi : d = id
      · subst hdi
        have hg : g = item.fileId := by
          by_contra hg
          rw [if_neg hg] at hd
          exact hnew g hd
        have hg' : g' = item.fileId := by
          by_contra hg'
          rw [if_neg hg'] at hd'
          exact hnew g' hd'
        exact hg.trans hg'.symm
      · have hold : ∀ g, d ∈ (if g = item.fileId then s.ids g ++ [id] else s.ids g) →
            d ∈ s.ids g := by
          intro g hg
          split at hg
          · simpa [hdi] using hg
          · exact hg
        exact hs.own g g' d (hold g hd) (hold g' hd')
    · rw [hids g]
      split
      · rw [List.nodup_append]
        refine ⟨hs.nodup g, by simp, fun a ha b hb => ?_⟩
        obtain rfl := List.mem_singleton.mp hb
        exact fun he => hnew g (he ▸ ha)
      · exact hs.nodup g

theorem Tracked.documentId_mem (hs : Tracked s) {row : DriveFileRow}
    (hrow : s.file f = some row) {d : DocumentId} (hd : row.documentId = some d) :
    d ∈ s.ids f := by
  have hl := hs.latest f
  rw [hrow, Option.bind_some, hd] at hl
  exact List.mem_of_getLast? hl.symm

/-- What a tier change or a retirement of a file is about are documents of the file. -/
theorem Tracked.targets_ids (hs : Tracked s) {row : DriveFileRow} (hrow : s.file f = some row)
    {vs : List FileVersion} (hvs : vs.map FileVersion.documentId = s.ids f) {d : DocumentId}
    (hd : d ∈ targets vs row) : d ∈ s.ids f := by
  unfold targets at hd
  dsimp only at hd
  split at hd
  · exact hs.documentId_mem hrow (by simpa using hd)
  · obtain ⟨v, hv, rfl⟩ := List.mem_map.mp hd
    rw [← hvs]
    exact List.mem_map_of_mem (List.mem_filter.mp hv).1

theorem lastRemoved_mem {vs : List FileVersion} {v : FileVersion} (h : lastRemoved vs = some v) :
    v ∈ vs ∧ v.state = .removed := by
  have hm := List.mem_filter.mp (List.mem_of_getLast? h)
  exact ⟨hm.1, by simpa using hm.2⟩

theorem Tracked.returning_ids (hs : Tracked s) {row : DriveFileRow} (hrow : s.file f = some row)
    {d : DocumentId} (hd : returning (s.versions f) row = some d) : d ∈ s.ids f := by
  unfold returning at hd
  cases hl : lastRemoved (s.versions f) with
  | none =>
    rw [hl] at hd
    exact hs.documentId_mem hrow (by simpa using hd)
  | some v =>
    rw [hl] at hd
    have hv : v.documentId = d := by simpa using hd
    exact hv ▸ List.mem_map_of_mem (lastRemoved_mem hl).1

theorem Tracked.of_retireFile (hs : Tracked s) (f : FileId) : Tracked (retireFile s f) := by
  cases hrow : s.file f with
  | none =>
    rw [retireFile, hrow]
    exact hs
  | some row =>
    obtain ⟨w, -, hdocs, ht⟩ := retireFile_spec hrow
    rw [ht]
    refine hs.same (Table.nodup_put hs.keys _ _) (fun g => ?_) (fun g => ?_) fun d hd => ?_
    · rw [DriveState.putFile_file]
      split
      · rename_i hg
        rw [hg, hrow]
        rfl
      · rfl
    · simp only [DriveState.ids, DriveState.putFile_versions]
      by_cases hg : g = f
      · subst hg
        rw [DriveState.putVersions_versions]
        exact FileVersion.ids_map (fun v => by simp) _
      · rw [DriveState.putVersions_other _ hg]
    · show w.doc d ≠ none
      rw [hdocs]
      simpa using hd

theorem reconciled_ids (h : Reconciled f s t) (g : FileId) : t.ids g = s.ids g := by
  cases h with
  | waits hn =>
    simp only [DriveState.ids]
    by_cases hg : g = f
    · subst hg
      rw [DriveState.putVersions_versions]
      exact FileVersion.ids_map (fun v => by simp) _
    · rw [DriveState.putVersions_other _ hg]
  | promotes older newest w hv hp hl hobjects hdocs =>
    simp only [DriveState.ids]
    by_cases hg : g = f
    · subst hg
      rw [DriveState.putVersions_versions, List.map_append,
        FileVersion.ids_map (fun v => by simp) older]
      have hids := congrArg (List.map FileVersion.documentId) hv
      rw [FileVersion.ids_map (fun v => by simp) _, List.map_append] at hids
      exact hids.symm
    · rw [DriveState.putVersions_other _ hg]

theorem reconciled_docs (h : Reconciled f s t) (d : DocumentId) :
    ((t.doc d).map Document.unversioned = (s.doc d).map Document.unversioned) ∨
      d ∈ s.ids f ∧ (t.doc d).map Document.unversioned =
        (s.doc d).map fun r => (r.unversioned.retired s.world.now) := by
  cases h with
  | waits hn => exact .inl rfl
  | promotes older newest w hv hp hl hobjects hdocs =>
    have hd : ((({ s with world := w } : DriveState).putVersions f
        (older.map (FileVersion.retired .superseded) ++ [{ newest with state := .current }])).doc
          d).map Document.unversioned = _ := hdocs d
    rw [hd]
    by_cases hm : d ∈ outdated older
    · cases hr : s.doc d with
      | none => exact .inl rfl
      | some r =>
        by_cases hpr : r.purgedAt = none
        · refine .inr ⟨?_, ?_⟩
          · have hids := congrArg (List.map FileVersion.documentId) hv
            rw [FileVersion.ids_map (fun v => by simp) _, List.map_append] at hids
            have hsub : d ∈ older.map FileVersion.documentId := by
              obtain ⟨v, hv', rfl⟩ := List.mem_map.mp hm
              exact List.mem_map_of_mem (List.mem_filter.mp hv').1
            rw [DriveState.ids, hids]
            exact List.mem_append_left _ hsub
          · rw [Option.map_some, Option.map_some, supersededRow, if_pos ⟨hm, hpr⟩,
              Document.retired_unversioned]
        · left
          rw [Option.map_some, Option.map_some, supersededRow, if_neg fun hh => hpr hh.2]
    · left
      refine congrArg (Option.map · (s.doc d)) (funext fun r => ?_)
      rw [supersededRow, if_neg fun hh => hm hh.1]

theorem doc_ne_none_of_unversioned {u w : World} {d : DocumentId} {g : Document → Document}
    (h : (w.doc d).map Document.unversioned = (u.doc d).map g) (hd : u.doc d ≠ none) :
    w.doc d ≠ none := by
  intro hn
  rw [hn, Option.map_none] at h
  exact hd (Option.map_eq_none_iff.mp h.symm)

theorem Tracked.of_reconciled (hs : Tracked s) (h : Reconciled f s t) : Tracked t := by
  have hfiles : t.files = s.files := by cases h <;> rfl
  refine hs.same (hfiles ▸ hs.keys) (fun g => ?_) (reconciled_ids h) fun d hd => ?_
  · rw [DriveState.file, DriveState.file, hfiles]
  · rcases reconciled_docs h d with he | ⟨-, he⟩ <;> exact doc_ne_none_of_unversioned he hd

/-- The rows of a file, of its versions and of their documents are left alone, but for the
columns that link versions. -/
structure Aside (f : FileId) (s t : DriveState) : Prop where
  file : t.file f = s.file f
  versions : t.versions f = s.versions f
  docs : ∀ d ∈ s.ids f,
    (t.doc d).map Document.unversioned = (s.doc d).map Document.unversioned

theorem Aside.refl (f : FileId) (s : DriveState) : Aside f s s := ⟨rfl, rfl, fun _ _ => rfl⟩

theorem Tracked.synced_aside (hs : Tracked s) (hfresh : s.doc id = none)
    (h : Synced cfg id fetched item tier folderId s t) (hf : f ≠ item.fileId) : Aside f s t := by
  cases h with
  | unchanged row u hk hc hu =>
    have hrow : s.file item.fileId = some row := (Option.filter_eq_some_iff.mp hk).1
    have hapart : ∀ d ∈ s.ids f, d ∉ s.ids item.fileId :=
      fun d hd hd' => hf (hs.own f item.fileId d hd hd')
    refine ⟨?_, ?_, fun d hd => ?_⟩
    · rw [DriveState.putFile_file, if_neg hf, DriveState.putVersions_file, DriveState.file,
        hu.files, DriveState.file]
    · rw [DriveState.putFile_versions, DriveState.putVersions_other _ hf, hu.versions]
    · rw [DriveState.putFile_doc, DriveState.putVersions_doc, hu.docs]
      refine congrArg (Option.map Document.unversioned) ?_
      have hback : comesBack (s.versions item.fileId) row ≠ some d := by
        intro hb
        unfold comesBack at hb
        split at hb
        · exact hapart d hd (hs.returning_ids hrow hb)
        · cases hb
      have htarget : d ∉ targets (afterReturn (s.versions item.fileId) row) row :=
        fun hm => hapart d hd (hs.targets_ids hrow (afterReturn_ids _ _) hm)
      have hsame : ∀ r, revisited (s.versions item.fileId) row tier d r = r := by
        intro r
        simp [revisited, hback, htarget]
      rw [funext hsame]
      simp
  | passedOver state reason hn hst =>
    exact ⟨by rw [DriveState.putFile_file, if_neg hf], rfl, fun _ _ => rfl⟩
  | imported data mimeType w hn hd hm hobjects hdocs =>
    refine ⟨?_, ?_, fun d hd => ?_⟩
    · rw [DriveState.putVersions_file, DriveState.putFile_file, if_neg hf]
      rfl
    · rw [DriveState.putVersions_other _ hf]
      rfl
    · have hne : d ≠ id := fun he => hs.fresh_ids hfresh f (he ▸ hd)
      have hw : w.doc d = s.doc d := by rw [hdocs, if_neg hne]
      exact congrArg (Option.map Document.unversioned) hw

theorem Tracked.retire_aside (hs : Tracked s) {g : FileId} (hf : f ≠ g) :
    Aside f s (retireFile s g) := by
  cases hrow : s.file g with
  | none =>
    rw [retireFile, hrow]
    exact .refl f s
  | some row =>
    obtain ⟨w, -, hdocs, ht⟩ := retireFile_spec hrow
    rw [ht]
    refine ⟨by rw [DriveState.putFile_file, if_neg hf]; rfl,
      by rw [DriveState.putFile_versions, DriveState.putVersions_other _ hf], fun d hd => ?_⟩
    show (w.doc d).map Document.unversioned = _
    have hn : d ∉ targets (s.versions g) row := fun hm =>
      hf (hs.own f g d hd (hs.targets_ids hrow rfl hm))
    rw [hdocs]
    simp [hn]

theorem Tracked.reconcile_aside (hs : Tracked s) {g : FileId} (h : Reconciled g s t)
    (hf : f ≠ g) : Aside f s t := by
  have hfiles : t.files = s.files := by cases h <;> rfl
  refine ⟨by rw [DriveState.file, DriveState.file, hfiles], ?_, fun d hd => ?_⟩
  · cases h <;> rw [DriveState.putVersions_other _ hf]
  · rcases reconciled_docs h d with he | ⟨hm, -⟩
    · exact he
    · exact absurd (hs.own f g d hd hm) hf

end Steps

end KnowledgeBase
