import KnowledgeBase.ImportTracking
import KnowledgeBase.ShelfOrder

/-! The files that are gone from Drive: what a full pass leaves of them. -/

namespace KnowledgeBase

open Program DriveSyncService

/-- Every document is deleted. -/
def Shelf.Gone (sh : Shelf) : Prop := ∀ c ∈ sh, c.row.deletedAt ≠ none

/-- A retirement reaches whatever is not deleted yet. -/
def Shelf.Covered (row : DriveFileRow) (sh : Shelf) : Prop :=
  ∀ c ∈ sh, c.row.deletedAt = none → c.id ∈ sh.targets row

namespace Shelf

variable {sh sh' : Shelf} {row : DriveFileRow} {now : Nat}

/-- The versions and the deletions are as they were. -/
def Keeps (sh sh' : Shelf) : Prop :=
  List.Forall₂ (fun c c' : Copy => c'.version = c.version ∧ c'.row.deletedAt = c.row.deletedAt)
    sh sh'

theorem Keeps.versions (h : Keeps sh sh') : sh'.versions = sh.versions := by
  induction h with
  | nil => rfl
  | cons hc _ ih =>
    rw [Shelf.versions, Shelf.versions] at ih ⊢
    rw [List.map_cons, List.map_cons, hc.1, ih]

theorem Keeps.gone (h : Keeps sh sh') (hg : sh.Gone) : sh'.Gone := by
  intro c' hc'
  obtain ⟨c, hc, -, hd⟩ := before_of_mem h hc'
  rw [hd]
  exact hg c hc

theorem Keeps.covered (h : Keeps sh sh') (hg : sh.Covered row) : sh'.Covered row := by
  intro c' hc' hd'
  obtain ⟨c, hc, hv, hd⟩ := before_of_mem h hc'
  have hid : c'.id = c.id := by rw [Copy.id, hv, Copy.id]
  have hm := hg c hc (hd.symm.trans hd')
  rw [targets] at hm ⊢
  rw [h.versions, hid]
  exact hm

theorem retired_gone (hs : ∀ c ∈ sh, c.Sound) (h : sh.Covered row ∨ sh.Gone) :
    (sh.retire now row).Gone := by
  intro c hc
  obtain ⟨c', hc', rfl⟩ := List.mem_map.mp hc
  have hp := (hs c' hc').unpurged
  dsimp only
  by_cases hd : c'.row.deletedAt = none
  · rcases h with h | h
    · rw [if_pos (h c' hc' hd)]
      exact Document.hidden_deletedAt _ now hp
    · exact absurd hd (h c' hc')
  · split
    · exact Document.hidden_deletedAt _ now hp
    · exact hd

theorem reconcile_gone (hs : ∀ c ∈ sh, c.Sound) (h : sh.Gone) : (sh.reconcile now).Gone := by
  intro c hc
  rcases reconcile_cases now sh with ⟨he, -⟩ | ⟨older, newest, hsh, hp, hl, he⟩
  · rw [he] at hc
    obtain ⟨c', hc', rfl⟩ := List.mem_map.mp hc
    rw [Copy.settled_row]
    exact h c' hc'
  · rw [he] at hc
    rcases List.mem_append.mp hc with hc | hc
    · obtain ⟨c', hc', rfl⟩ := List.mem_map.mp hc
      have hm : c' ∈ sh := by
        rw [hsh]
        exact List.mem_append_left _ hc'
      unfold Copy.outdated
      split
      · rw [if_pos (by rw [Copy.settled_row]; exact (hs c' hm).unpurged), Copy.settled_row]
        exact Document.retired_deletedAt _ now (hs c' hm).unpurged
      · rw [Copy.settled_row]
        exact h c' hm
    · obtain rfl := List.mem_singleton.mp hc
      exact h newest (by rw [hsh]; simp)

end Shelf

namespace SyncState

variable {sv : Services} {cfg : DriveConfig} {s t : SyncState} {a : SyncAction} {f : FileId}

/-- Where a full pass turns to the files that are gone: a document of such a file that is not
deleted belongs to a file whose row says neither SKIPPED nor FAILED, and to a version that is
open, or to the newest one of a file with no open version. -/
def RetiresWhole (s : SyncState) (a : SyncAction) : Prop :=
  match a, s.pass with
  | .nextPhase, some { listing, limited := false, phase := .syncing [] } =>
    ∀ p ∈ s.store.files, p.1 ∉ listing.files → ∀ v ∈ s.store.versions p.1,
      ∀ r ∈ s.store.doc v.documentId, r.deletedAt = none →
        p.2.state ≠ .skipped ∧ p.2.state ≠ .failed ∧
          (v.state = .duplicate ∨ v.state = .failed →
            p.2.documentId = some v.documentId ∧ ∀ u ∈ s.store.versions p.1, u.live = false)
  | _, _ => True

/-- The listing of a full pass that turns to the files that are gone. -/
def sweeping (s : SyncState) (a : SyncAction) : Option Listing :=
  match a, s.pass with
  | .nextPhase, some { listing, limited := false, phase := .syncing [] } => some listing
  | _, _ => none

theorem retiresWhole_iff (s : SyncState) (a : SyncAction) : RetiresWhole s a ↔
    ∀ listing ∈ sweeping s a, ∀ p ∈ s.store.files, p.1 ∉ listing.files →
      ∀ v ∈ s.store.versions p.1, ∀ r ∈ s.store.doc v.documentId, r.deletedAt = none →
        p.2.state ≠ .skipped ∧ p.2.state ≠ .failed ∧
          (v.state = .duplicate ∨ v.state = .failed →
            p.2.documentId = some v.documentId ∧ ∀ u ∈ s.store.versions p.1, u.live = false) := by
  unfold RetiresWhole sweeping
  split <;> simp

instance (s : SyncState) (a : SyncAction) : Decidable (RetiresWhole s a) :=
  decidable_of_iff' _ (retiresWhole_iff s a)

/-- What a pass has still to do for the files that are gone, and what is done. -/
def OnCourse (s : SyncState) (p : Pass) : Prop :=
  match p.phase with
  | .syncing _ => True
  | .retiring files =>
    (p.limited = true → files = []) ∧ (∀ f ∈ files, f ∉ p.listing.files) ∧
      (p.limited = false → ∀ f ∉ p.listing.files,
        (∃ row, s.store.file f = some row ∧ f ∈ files ∧ (s.store.shelf f).Covered row) ∨
          (s.store.shelf f).Gone)
  | .reconciling _ => p.limited = false → ∀ f ∉ p.listing.files, (s.store.shelf f).Gone

structure VanishedInv (s : SyncState) : Prop where
  tracked : Tracked s.store
  orderly : ∀ f, Orderly (s.store.file f) (s.store.shelf f)
  removed : ∀ f row, s.store.file f = some row → row.state = .removed → (s.store.shelf f).Gone
  course : ∀ p, s.pass = some p → s.OnCourse p

theorem shelf_nil (hs : Tracked s.store) (hrow : s.store.file f = none) :
    s.store.shelf f = [] := by
  by_contra hne
  have hids : s.store.ids f ≠ [] := by
    rw [← DriveState.shelf_ids hs f]
    simpa using hne
  obtain ⟨row, hrow'⟩ := hs.file_of_ids hids
  rw [hrow] at hrow'
  cases hrow'

/-- At the turn a file that is gone is either deleted or about to be retired whole. -/
theorem gone_or_covered (hs : VanishedInv s) (hok : RetiresWhole s .nextPhase)
    {listing : Listing} (hp : s.pass = some { listing, limited := false, phase := .syncing [] })
    (hf : f ∉ listing.files) :
    (∃ row, s.store.file f = some row ∧ f ∈ vanished s.store listing.files ∧
        (s.store.shelf f).Covered row) ∨ (s.store.shelf f).Gone := by
  cases hrow : s.store.file f with
  | none =>
    right
    rw [shelf_nil hs.tracked hrow]
    simp [Shelf.Gone]
  | some row =>
    have hcond : ∀ c ∈ s.store.shelf f, c.row.deletedAt = none →
        row.state ≠ .skipped ∧ row.state ≠ .failed ∧
          (c.version.state = .duplicate ∨ c.version.state = .failed →
            row.documentId = some c.id ∧ ∀ c' ∈ s.store.shelf f, c'.live = false) := by
      intro c hc hd
      obtain ⟨hv, r, hr, hcr⟩ := DriveState.mem_shelf.mp hc
      rw [hcr] at hd
      have hmem : (f, row) ∈ s.store.files := (Table.mem_iff_get hs.tracked.keys).mpr hrow
      unfold RetiresWhole at hok
      rw [hp] at hok
      obtain ⟨h1, h2, h3⟩ := hok (f, row) hmem hf c.version hv r hr hd
      refine ⟨h1, h2, fun hst => ?_⟩
      obtain ⟨hid, hall⟩ := h3 hst
      exact ⟨hid, fun c' hc' => hall c'.version (DriveState.mem_shelf.mp hc').1⟩
    by_cases hgone : (s.store.shelf f).Gone
    · exact .inr hgone
    · left
      simp only [Shelf.Gone, not_forall, not_not] at hgone
      obtain ⟨c, hc, hd⟩ := hgone
      obtain ⟨h1, h2, -⟩ := hcond c hc hd
      have himported : row.state = .imported := by
        cases hst : row.state with
        | imported => rfl
        | skipped => exact absurd hst h1
        | failed => exact absurd hst h2
        | removed => exact absurd hd (hs.removed f row hrow hst c hc)
      refine ⟨row, rfl, hs.tracked.mem_vanished.mpr ⟨row, hrow, himported, hf⟩, fun c hc hd => ?_⟩
      have hsound := (hs.orderly f).sound c hc
      obtain ⟨-, -, h3⟩ := hcond c hc hd
      rw [Shelf.mem_targets]
      cases hst : c.version.state with
      | pending => exact .inl ⟨c, hc, c.live_iff.mpr (.inr hst), rfl⟩
      | current => exact .inl ⟨c, hc, c.live_iff.mpr (.inl hst), rfl⟩
      | superseded => exact absurd hd (hsound.hidden (.inl hst))
      | removed => exact absurd hd (hsound.hidden (.inr hst))
      | duplicate =>
        obtain ⟨hid, hall⟩ := h3 (.inl hst)
        exact .inr ⟨hall, hid⟩
      | failed =>
        obtain ⟨hid, hall⟩ := h3 (.inr hst)
        exact .inr ⟨hall, hid⟩

/-- A stage or a change of tier keeps the versions and the deletions. -/
theorem keeps_of_quiet (hs : Tracked s.store) (h : StepCases sv cfg s a t)
    (ha : (∃ stage id luck n, a = .stage stage id luck n) ∨ ∃ id tier, a = .classify id tier)
    (f : FileId) : t.store.file f = s.store.file f ∧
      Shelf.Keeps (s.store.shelf f) (t.store.shelf f) := by
  have hsame : ∀ sh : Shelf, Shelf.Keeps sh sh := fun sh =>
    List.forall₂_same.mpr fun _ _ => ⟨rfl, rfl⟩
  cases fileStep_of_cases hs h f with
  | aside a t hfile hshelf =>
    rw [hfile, hshelf]
    exact ⟨rfl, hsame _⟩
  | works stage id luck operations t hfile hshelf hidle =>
    exact ⟨hfile, hshelf.imp fun _ _ hr => ⟨hr.1, hr.2.deletedAt⟩⟩
  | classifies id tier t hfile hshelf =>
    refine ⟨hfile, ?_⟩
    rw [hshelf]
    refine List.forall₂_map_right_iff.mpr (List.forall₂_same.mpr fun c _ => ?_)
    unfold Copy.rewritten
    split <;> exact ⟨rfl, rfl⟩
  | _ => rcases ha with ⟨_, _, _, _, ha⟩ | ⟨_, _, ha⟩ <;> cases ha

theorem course_of_quiet (hs : VanishedInv s) (hpass : t.pass = s.pass)
    (hq : ∀ f, t.store.file f = s.store.file f ∧
      Shelf.Keeps (s.store.shelf f) (t.store.shelf f)) {p : Pass} (hp : t.pass = some p) :
    t.OnCourse p := by
  have hc := hs.course p (hpass ▸ hp)
  unfold OnCourse at hc ⊢
  cases hphase : p.phase with
  | syncing items => trivial
  | retiring files =>
    rw [hphase] at hc
    obtain ⟨hl, hn, hall⟩ := hc
    refine ⟨hl, hn, fun hlim f hf => ?_⟩
    rcases hall hlim f hf with ⟨row, hrow, hm, hcov⟩ | hgone
    · exact .inl ⟨row, (hq f).1.trans hrow, hm, (hq f).2.covered hcov⟩
    · exact .inr ((hq f).2.gone hgone)
  | reconciling files =>
    rw [hphase] at hc
    exact fun hlim f hf => (hq f).2.gone (hc hlim f hf)

/-- A removed file's documents stay deleted until the file is synced again. -/
theorem removed_of_step (hs : VanishedInv s) (ha : a.HandsOff) (h : StepCases sv cfg s a t)
    {row : DriveFileRow} (hrow : t.store.file f = some row) (hst : row.state = .removed) :
    (t.store.shelf f).Gone := by
  have hsound := (hs.orderly f).sound
  cases fileStep_of_cases hs.tracked h f with
  | aside a t hfile hshelf =>
    rw [hshelf]
    exact hs.removed f row (hfile ▸ hrow) hst
  | revisits id fetched luck item tier folderId row' t hf hnext hk hc hfile hshelf =>
    rw [hfile] at hrow
    obtain rfl := Option.some.inj hrow
    cases hst
  | passesOver id fetched luck item tier folderId state reason t hf hnext hn hstate hfile hshelf =>
    rw [hfile] at hrow
    obtain rfl := Option.some.inj hrow
    have hst' : state = .removed := hst
    rcases hstate with rfl | rfl <;> cases hst'
  | imports id fetched luck item tier folderId data mimeType t hf hnext hfresh hn hd hm hfile
      hshelf =>
    rw [hfile] at hrow
    obtain rfl := Option.some.inj hrow
    cases hst
  | retires listing limited files row' t hp hrow' hfile hshelf =>
    rw [hshelf]
    obtain ⟨hlim, hout, hall⟩ := hs.course _ hp
    cases limited with
    | true => cases hlim rfl
    | false =>
      refine Shelf.retired_gone hsound ?_
      rcases hall rfl f (hout f (by simp)) with ⟨row'', hrow'', -, hcov⟩ | hgone
      · rw [hrow'] at hrow''
        obtain rfl := Option.some.inj hrow''
        exact .inl hcov
      · exact .inr hgone
  | reconciles listing limited files t hp hfile hshelf =>
    rw [hshelf]
    exact Shelf.reconcile_gone hsound (hs.removed f row (hfile ▸ hrow) hst)
  | works stage id luck operations t hfile hshelf hidle =>
    have hkeeps := (keeps_of_quiet hs.tracked h (.inl ⟨_, _, _, _, rfl⟩) f).2
    exact hkeeps.gone (hs.removed f row (hfile ▸ hrow) hst)
  | classifies id tier t hfile hshelf =>
    have hkeeps := (keeps_of_quiet hs.tracked h (.inr ⟨_, _, rfl⟩) f).2
    exact hkeeps.gone (hs.removed f row (hfile ▸ hrow) hst)
  | restores id t hfile hshelf => exact ha.elim
  | erases id t hfile hshelf => exact ha.elim

theorem course_of_step (hs : VanishedInv s) (ha : a.HandsOff) (hok : RetiresWhole s a)
    (h : StepCases sv cfg s a t) {p : Pass} (hp : t.pass = some p) : t.OnCourse p := by
  cases h with
  | begins listing limit hnone =>
    obtain rfl := Option.some.inj hp
    trivial
  | syncs id fetched luck listing limited item tier folderId items store hp' hfresh h =>
    obtain rfl := Option.some.inj hp
    trivial
  | turnsToGone listing limited hp' =>
    obtain rfl := Option.some.inj hp
    cases limited with
    | true => exact ⟨fun _ => rfl, by simp, nofun⟩
    | false =>
      refine ⟨nofun, fun f hf => ?_, fun _ f hf => gone_or_covered hs hok hp' hf⟩
      obtain ⟨row, -, -, hn⟩ := hs.tracked.mem_vanished.mp hf
      exact hn
  | turnsToPending listing limited hp' =>
    obtain rfl := Option.some.inj hp
    obtain ⟨-, -, hall⟩ := hs.course _ hp'
    intro hlim f hf
    rcases hall hlim f hf with ⟨row, -, hm, -⟩ | hgone
    · cases hm
    · exact hgone
  | retires listing limited g files hp' =>
    obtain rfl := Option.some.inj hp
    obtain ⟨hlim, hout, hall⟩ := hs.course _ hp'
    refine ⟨fun hl => (by cases hlim hl), fun f hf => hout f (by simp [hf]), fun hl f hf => ?_⟩
    by_cases hfg : f = g
    · subst hfg
      right
      cases hrow : s.store.file f with
      | none =>
        have hsame : DriveSyncService.retireFile s.store f = s.store := by
          rw [DriveSyncService.retireFile, hrow]
        rw [hsame, shelf_nil hs.tracked hrow]
        simp [Shelf.Gone]
      | some row =>
        dsimp only
        rw [retire_shelf hs.tracked hrow]
        refine Shelf.retired_gone (hs.orderly f).sound ?_
        rcases hall hl f hf with ⟨row', hrow', -, hcov⟩ | hgone
        · rw [hrow] at hrow'
          obtain rfl := Option.some.inj hrow'
          exact .inl hcov
        · exact .inr hgone
    · have haside : Aside f s.store (DriveSyncService.retireFile s.store g) :=
        hs.tracked.retire_aside hfg
      have hshelf := DriveState.shelf_eq haside.versions haside.docs
      dsimp only
      rw [hshelf, haside.file]
      rcases hall hl f hf with ⟨row, hrow, hm, hcov⟩ | hgone
      · rcases List.mem_cons.mp hm with rfl | hm
        · exact absurd rfl hfg
        · exact .inl ⟨row, hrow, hm, hcov⟩
      · exact .inr hgone
  | reconciles listing limited g files hp' =>
    obtain rfl := Option.some.inj hp
    have hall := hs.course _ hp'
    intro hl f hf
    have hgone := hall hl f hf
    by_cases hfg : f = g
    · subst hfg
      dsimp only
      rw [reconcile_shelf hs.tracked]
      exact Shelf.reconcile_gone (hs.orderly f).sound hgone
    · have haside := hs.tracked.reconcile_aside (reconcileFile_spec sv s.store g) hfg
      have hshelf := DriveState.shelf_eq haside.versions haside.docs
      dsimp only
      rw [hshelf]
      exact hgone
  | finishes listing limited hp' => cases hp
  | works stage id luck operations w h =>
    have hstep : StepCases sv cfg s _ _ := .works stage id luck operations w h
    have hq := keeps_of_quiet hs.tracked hstep (.inl ⟨_, _, _, _, rfl⟩)
    refine course_of_quiet hs ?_ hq hp
    rfl
  | classifies id tier store h =>
    have hstep : StepCases sv cfg s _ _ := .classifies id tier store h
    have hq := keeps_of_quiet hs.tracked hstep (.inr ⟨_, _, rfl⟩)
    refine course_of_quiet hs ?_ hq hp
    rfl
  | restores id store h => exact ha.elim
  | erases id store h => exact ha.elim

theorem vanishedInv_of_step (hs : VanishedInv s) (ha : a.HandsOff) (hok : RetiresWhole s a)
    (h : StepCases sv cfg s a t) : VanishedInv t where
  tracked := tracked_of_step hs.tracked h
  orderly f := orderly_of_step hs.tracked (hs.orderly f) ha (fileStep_of_cases hs.tracked h f)
  removed _ _ hrow hst := removed_of_step hs ha h hrow hst
  course _ hp := course_of_step hs ha hok h hp

theorem Fresh.vanished (h : s.Fresh) : VanishedInv s where
  tracked := h.tracked
  orderly := h.orderly
  removed := by
    intro f row hrow
    rw [DriveState.file, h.files] at hrow
    cases hrow
  course := by
    intro p hp
    rw [h.pass] at hp
    cases hp

/-- A file that a full pass did not find has no document left that is not deleted. -/
def VanishedRetired (s : SyncState) : Prop :=
  ∀ p, s.pass = some p → p.Complete → ∀ f ∉ p.listing.files, ∀ v ∈ s.store.versions f,
    ∀ r, s.store.doc v.documentId = some r → r.deletedAt ≠ none

/-- A file gone from Drive is gone from search after every full pass, along every history
whose full passes turn to the gone files with nothing out of their reach. -/
theorem vanished_files_retired {as : List SyncAction} (hs : s.Fresh)
    (h : Transition.Runs (step sv cfg)
      (fun s a => a.Undisturbed ∧ a.HandsOff ∧ RetiresWhole s a) s as t) :
    VanishedRetired t := by
  have hinv : VanishedInv t := h.invariant (I := VanishedInv) (fun s a u hi hok hu =>
    vanishedInv_of_step hi hok.2.1 hok.2.2 (step_cases hu hok.1)) hs.vanished
  intro p hp hcomplete f hf v hv r hr
  have hcourse := hinv.course p hp
  rw [OnCourse, hcomplete.2] at hcourse
  have hmem : ({ version := v, row := r.unversioned } : Copy) ∈ t.store.shelf f :=
    DriveState.mem_shelf.mpr ⟨hv, r, hr, rfl⟩
  exact hcourse hcomplete.1 f hf _ hmem

/-- A full pass has come to its end and left a document of a file it did not find. -/
def leftBehind (s : SyncState) (f : FileId) : Bool :=
  match s.pass with
  | some { listing, limited := false, phase := .reconciling [] } =>
    !listing.files.contains f &&
      (s.store.versions f).any fun v =>
        (s.store.doc v.documentId).any fun r => r.deletedAt.isNone
  | _ => false

theorem not_leftBehind (h : VanishedRetired s) (f : FileId) : leftBehind s f = false := by
  unfold leftBehind
  split
  · rename_i listing hp
    by_contra hleft
    simp only [Bool.not_eq_false, Bool.and_eq_true, Bool.not_eq_true', List.contains_eq_mem,
      decide_eq_false_iff_not, List.any_eq_true, Option.any_eq_true_iff_get] at hleft
    obtain ⟨hf, v, hv, hsome, hd⟩ := hleft
    exact h _ hp ⟨rfl, rfl⟩ f hf v hv _ (Option.some_get hsome).symm
      (Option.isNone_iff_eq_none.mp hd)
  · rfl

theorem first_listed :
    ([(memoFile "f" "1" 1, Classification.public, "root")].map (·.1.fileId)).Nodup := by simp

theorem second_listed :
    ([(memoFile "f" "2" 5000, Classification.public, "root")].map (·.1.fileId)).Nodup := by simp

theorem none_listed : (([] : List Entry).map (·.1.fileId)).Nodup := by simp

/-- Imported and live; then edited to a size that is skipped; then gone. -/
def skippedThenGone : List SyncAction :=
  fullPass (.of [(memoFile "f" "1" 1, .public, "root")] first_listed) [syncing 0 [37]] 0 1 ++
    [.finish] ++ pipeline 0 ++
    fullPass (.of [(memoFile "f" "2" 5000, .public, "root")] second_listed) [syncing 1 [38]] 0 1 ++
    [.finish] ++ fullPass (.of [] none_listed) [] 0 0

theorem gone_file_left_visible : ¬ ∀ (sv : Services) (cfg : DriveConfig) (s t : SyncState)
    (as : List SyncAction), s.Fresh →
    Transition.Runs (step sv cfg) (fun _ a => a.Undisturbed ∧ a.HandsOff) s as t →
    VanishedRetired t := by
  intro hall
  have hgood : ∀ a ∈ skippedThenGone, a.Undisturbed ∧ a.HandsOff := by
    simp [skippedThenGone, fullPass, pipeline, working, syncing, SyncAction.Undisturbed,
      SyncAction.HandsOff, DriveLuck.fine]
  have hrun : Transition.Runs (step plainServices plainDrive)
      (fun _ a => a.Undisturbed ∧ a.HandsOff) start skippedThenGone _ :=
    Transition.runs_of_exec_on (fun _ _ => true) _ (fun _ _ h _ => h) hgood (by decide +kernel)
  have hleft := not_leftBehind (hall plainServices plainDrive start _ _ start_fresh hrun) "f"
  revert hleft
  decide +kernel

/-- Imported and live, then gone. -/
def importedThenGone : List SyncAction :=
  fullPass (.of [(memoFile "f" "1" 1, .public, "root")] first_listed) [syncing 0 [37]] 0 1 ++
    [.finish] ++ pipeline 0 ++ fullPass (.of [] none_listed) [] 1 0

def importedGone : SyncState :=
  Transition.finalState (step plainServices plainDrive) start importedThenGone

theorem gone_file_retired : VanishedRetired importedGone ∧
    (importedGone.pass.any fun p => !p.limited && !p.listing.files.contains "f") = true ∧
    (importedGone.store.versions "f").length = 1 := by
  refine ⟨?_, by decide +kernel, by decide +kernel⟩
  have hgood : ∀ a ∈ importedThenGone, a.Undisturbed ∧ a.HandsOff := by
    simp [importedThenGone, fullPass, pipeline, working, syncing, SyncAction.Undisturbed,
      SyncAction.HandsOff, DriveLuck.fine]
  exact vanished_files_retired start_fresh (Transition.runs_of_exec_on
    (fun s a => decide (RetiresWhole s a)) _
    (fun _ _ h hr => ⟨h.1, h.2, of_decide_eq_true hr⟩) hgood (by decide +kernel))

end SyncState

end KnowledgeBase
