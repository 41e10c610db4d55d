import KnowledgeBase.DriveVersions

/-! A file's shelf: the documents it has become, each beside the row of its version. What a
sync, a retirement and a reconciliation do to the file is stated here in terms of its shelf
alone; that the connector does just that is shown below. -/

namespace KnowledgeBase

open Program DriveSyncService

structure Copy where
  version : FileVersion
  row : Document
  deriving DecidableEq

namespace Copy

def id (c : Copy) : DocumentId := c.version.documentId

def live (c : Copy) : Bool := c.version.live

/-- In search. -/
def Visible (c : Copy) : Prop := c.row.status = .live ∧ c.row.deletedAt = none

instance (c : Copy) : Decidable c.Visible :=
  inferInstanceAs (Decidable (c.row.status = .live ∧ c.row.deletedAt = none))

def inState (state : VersionState) (c : Copy) : Copy :=
  { c with version := { c.version with state } }

/-- A pending copy whose document has come to an end without being seen. -/
def settled (c : Copy) : Copy :=
  if c.version.state ≠ .pending then c
  else if c.row.status = .duplicate then c.inState .duplicate
  else if c.row.status ∈ failedStatuses then c.inState .failed
  else c

def outdated (now : Nat) (c : Copy) : Copy :=
  if c.live then
    { c.inState .superseded with
      row := if c.row.purgedAt = none then c.row.retired now else c.row }
  else c

end Copy

abbrev Shelf := List Copy

namespace Shelf

def versions (sh : Shelf) : List FileVersion := sh.map Copy.version

def targets (row : DriveFileRow) (sh : Shelf) : List DocumentId :=
  DriveSyncService.targets sh.versions row

/-- The file is back: the copy removed last, or else the one imported last. -/
def bringBack (row : DriveFileRow) (sh : Shelf) : Shelf :=
  match (sh.filter (·.version.state = .removed)).getLast? with
  | some last =>
    sh.map fun c => if c.id = last.id then { c.inState .pending with row := c.row.shown } else c
  | none =>
    sh.map fun c => if row.documentId = some c.id then { c with row := c.row.shown } else c

def retier (row : DriveFileRow) (tier : Classification) (sh : Shelf) : Shelf :=
  sh.map fun c =>
    if c.id ∈ sh.targets row then { c with row := retiered tier c.row } else c

/-- The file is found with the content it had. -/
def revisit (row : DriveFileRow) (tier : Classification) (sh : Shelf) : Shelf :=
  let sh := if row.state = .removed then sh.bringBack row else sh
  if row.classification ≠ some tier then sh.retier row tier else sh

/-- The file is gone. -/
def retire (now : Nat) (row : DriveFileRow) (sh : Shelf) : Shelf :=
  sh.map fun c =>
    { version := c.version.retired .removed
      row := if c.id ∈ sh.targets row then c.row.hidden now else c.row }

def reconcile (now : Nat) (sh : Shelf) : Shelf :=
  let settled := sh.map Copy.settled
  match settled.getLast? with
  | none => settled
  | some newest =>
    if newest.version.state ≠ .pending ∨ newest.row.status ≠ .live then settled
    else settled.dropLast.map (Copy.outdated now) ++ [newest.inState .current]

end Shelf

namespace Document

@[simp] theorem unversioned_unversioned (d : Document) : d.unversioned.unversioned = d.unversioned :=
  rfl

theorem hidden_unversioned (d : Document) (now : Nat) :
    (d.hidden now).unversioned = d.unversioned.hidden now := by
  unfold hidden
  split
  · rename_i h
    exact (if_pos (c := d.unversioned.deletedAt = none ∧ d.unversioned.purgedAt = none) h).symm
  · rename_i h
    exact (if_neg (c := d.unversioned.deletedAt = none ∧ d.unversioned.purgedAt = none) h).symm

theorem shown_unversioned (d : Document) : d.shown.unversioned = d.unversioned.shown := by
  unfold shown
  split
  · rename_i h
    exact (if_pos (c := d.unversioned.deletedAt ≠ none ∧ d.unversioned.purgedAt = none) h).symm
  · rename_i h
    exact (if_neg (c := d.unversioned.deletedAt ≠ none ∧ d.unversioned.purgedAt = none) h).symm

theorem retiered_unversioned (d : Document) (tier : Classification) :
    (retiered tier d).unversioned = retiered tier d.unversioned := by
  unfold retiered
  split
  · rename_i h
    exact (if_pos (c := d.unversioned.purgedAt = none) h).symm
  · rename_i h
    exact (if_neg (c := d.unversioned.purgedAt = none) h).symm

end Document

namespace DriveState

/-- The columns that link versions are left out of account. -/
def shelf (s : DriveState) (f : FileId) : Shelf :=
  (s.versions f).filterMap fun v =>
    (s.doc v.documentId).map fun r => { version := v, row := r.unversioned }

variable {s t : DriveState} {f : FileId}

theorem mem_shelf {c : Copy} : c ∈ s.shelf f ↔
    c.version ∈ s.versions f ∧ ∃ r, s.doc c.id = some r ∧ c.row = r.unversioned := by
  simp only [shelf, List.mem_filterMap, Option.map_eq_some_iff]
  constructor
  · rintro ⟨v, hv, r, hr, rfl⟩
    exact ⟨hv, r, hr, rfl⟩
  · rintro ⟨hv, r, hr, hrow⟩
    exact ⟨c.version, hv, r, hr, by rw [← hrow]⟩

theorem shelf_versions (hs : Tracked s) (f : FileId) : (s.shelf f).versions = s.versions f := by
  have hall : ∀ vs : List FileVersion, (∀ v ∈ vs, s.doc v.documentId ≠ none) →
      Shelf.versions (vs.filterMap fun v =>
        (s.doc v.documentId).map fun r => { version := v, row := r.unversioned }) = vs := by
    intro vs
    induction vs with
    | nil => exact fun _ => rfl
    | cons v vs ih =>
      intro hvs
      obtain ⟨r, hr⟩ := Option.ne_none_iff_exists'.mp (hvs v (by simp))
      have hrest := ih fun u hu => hvs u (by simp [hu])
      rw [List.filterMap_cons, hr]
      simp only [Option.map_some, Shelf.versions, List.map_cons] at hrest ⊢
      rw [hrest]
  exact hall _ fun v hv => hs.known f _ (List.mem_map_of_mem hv)

theorem shelf_ids (hs : Tracked s) (f : FileId) : (s.shelf f).map Copy.id = s.ids f := by
  have h := congrArg (List.map FileVersion.documentId) (shelf_versions hs f)
  rw [Shelf.versions, List.map_map] at h
  exact h

/-- Versions changed one by one, and so their documents. -/
theorem shelf_map {g : FileVersion → FileVersion} {h : DocumentId → Document → Document}
    (hg : ∀ v, (g v).documentId = v.documentId) (hv : t.versions f = (s.versions f).map g)
    (hd : ∀ d ∈ s.ids f, (t.doc d).map Document.unversioned =
      ((s.doc d).map Document.unversioned).map (h d)) :
    t.shelf f = (s.shelf f).map fun c => { version := g c.version, row := h c.id c.row } := by
  have hall : ∀ vs : List FileVersion, (∀ v ∈ vs, v ∈ s.versions f) →
      ((vs.map g).filterMap fun v =>
        (t.doc v.documentId).map fun r => ({ version := v, row := r.unversioned } : Copy)) =
      (vs.filterMap fun v => (s.doc v.documentId).map fun r =>
        ({ version := v, row := r.unversioned } : Copy)).map fun c =>
          { version := g c.version, row := h c.id c.row } := by
    intro vs
    induction vs with
    | nil => exact fun _ => rfl
    | cons v vs ih =>
      intro hvs
      have hrest := ih fun u hu => hvs u (by simp [hu])
      have hone := hd v.documentId (List.mem_map_of_mem (hvs v (by simp)))
      rw [List.map_cons, List.filterMap_cons, List.filterMap_cons, hg v, hrest]
      cases hs : s.doc v.documentId with
      | none =>
        rw [hs] at hone
        have ht : t.doc v.documentId = none := by simpa using hone
        rw [ht]
        rfl
      | some r =>
        rw [hs] at hone
        simp only [Option.map_some] at hone
        obtain ⟨r', hr', he⟩ := Option.map_eq_some_iff.mp hone
        simp only [hr', Option.map_some, List.map_cons, Copy.id, he]
  rw [shelf, hv]
  exact hall _ fun v hv => hv

theorem shelf_eq (hv : t.versions f = s.versions f)
    (hd : ∀ d ∈ s.ids f, (t.doc d).map Document.unversioned =
      (s.doc d).map Document.unversioned) : t.shelf f = s.shelf f := by
  have h : t.shelf f = (s.shelf f).map fun c => { version := id c.version, row := c.row } :=
    shelf_map (h := fun _ r => r) (fun _ => rfl) (by rw [hv, List.map_id])
      fun d hd' => by rw [hd d hd', Option.map_id']
  rw [h]
  exact List.map_id _

/-- The versions stay and the rows are changed each in some way. -/
theorem shelf_relate {R : Document → Document → Prop}
    (hR : ∀ r r', R r r' → R r.unversioned r'.unversioned)
    (hv : t.versions f = s.versions f) (h : RowsRelate R s.world t.world) :
    List.Forall₂ (fun c c' : Copy => c'.version = c.version ∧ R c.row c'.row)
      (s.shelf f) (t.shelf f) := by
  unfold shelf
  rw [hv]
  induction s.versions f with
  | nil => exact .nil
  | cons v vs ih =>
    rw [List.filterMap_cons, List.filterMap_cons]
    cases hr : s.doc v.documentId with
    | none =>
      have ht : t.doc v.documentId = none := (h v.documentId).1 hr
      rw [ht]
      exact ih
    | some r =>
      obtain ⟨r', hr', hrr⟩ := (h v.documentId).2 r hr
      have ht : t.doc v.documentId = some r' := hr'
      rw [ht]
      exact .cons ⟨rfl, hR r r' hrr⟩ ih

end DriveState

namespace Shelf

variable {sh : Shelf} {row : DriveFileRow}

theorem lastRemoved_versions (sh : Shelf) :
    lastRemoved sh.versions =
      ((sh.filter (·.version.state = .removed)).getLast?).map Copy.version := by
  rw [lastRemoved, versions, List.filter_map, List.getLast?_map]
  rfl

theorem bringBack_eq (row : DriveFileRow) (sh : Shelf) :
    sh.bringBack row = sh.map fun c =>
      { version :=
          match lastRemoved sh.versions with
          | none => c.version
          | some v => c.version.marked v.documentId .pending
        row := if returning sh.versions row = some c.id then c.row.shown else c.row } := by
  unfold bringBack returning
  rw [lastRemoved_versions]
  cases hl : (sh.filter (·.version.state = .removed)).getLast? with
  | none =>
    refine List.map_congr_left fun c _ => ?_
    by_cases hc : row.documentId = some c.id <;> simp [hc]
  | some last =>
    refine List.map_congr_left fun c _ => ?_
    simp only [Option.map_some, Option.some_or, Option.some.injEq]
    by_cases hc : c.id = last.id
    · have hc' : c.version.documentId = last.version.documentId := hc
      have hc'' : last.version.documentId = c.id := hc.symm
      rw [if_pos hc, if_pos hc'', FileVersion.marked, if_pos hc']
      rfl
    · have hc' : ¬ c.version.documentId = last.version.documentId := hc
      have hc'' : ¬ last.version.documentId = c.id := fun h => hc h.symm
      rw [if_neg hc, if_neg hc'', FileVersion.marked, if_neg hc']

theorem bringBack_versions (row : DriveFileRow) (sh : Shelf) :
    (sh.bringBack row).versions = returnedVersions sh.versions := by
  rw [bringBack_eq, versions, List.map_map]
  cases hl : lastRemoved sh.versions with
  | none =>
    rw [returnedVersions_none hl]
    rfl
  | some v =>
    rw [returnedVersions_some hl, versions, List.map_map]
    rfl

/-- A tier change comes after the return. -/
theorem revisit_eq (row : DriveFileRow) (tier : Classification) (sh : Shelf) :
    sh.revisit row tier = sh.map fun c =>
      { version :=
          if row.state = .removed then
            match lastRemoved sh.versions with
            | none => c.version
            | some v => c.version.marked v.documentId .pending
          else c.version
        row := revisited sh.versions row tier c.id c.row } := by
  unfold revisit revisited comesBack afterReturn
  have hid : ∀ c : Copy, ∀ v : FileVersion, (c.version.marked v.documentId .pending).documentId =
      c.id := fun c v => FileVersion.marked_documentId _ _ _
  by_cases hrem : row.state = .removed
  · simp only [if_pos hrem]
    by_cases hmove : row.classification ≠ some tier
    · rw [if_pos hmove, retier, targets, bringBack_versions, bringBack_eq, List.map_map]
      refine List.map_congr_left fun c _ => ?_
      have hcid : ∀ r : Document, (Copy.mk (match lastRemoved sh.versions with
          | none => c.version
          | some v => c.version.marked v.documentId .pending) r).id = c.id := by
        intro r
        unfold Copy.id
        cases lastRemoved sh.versions with
        | none => rfl
        | some v => exact hid c v
      simp only [Function.comp_apply, hcid, ne_eq, hmove, not_false_iff, true_and]
      split <;> rfl
    · rw [if_neg hmove, bringBack_eq]
      refine List.map_congr_left fun c _ => ?_
      simp only [hmove, false_and, if_false]
  · simp only [if_neg hrem]
    by_cases hmove : row.classification ≠ some tier
    · rw [if_pos hmove, retier, targets]
      refine List.map_congr_left fun c _ => ?_
      simp only [ne_eq, hmove, not_false_iff, true_and, reduceCtorEq, if_false]
      split <;> rfl
    · rw [if_neg hmove]
      simp only [hmove, false_and, if_false, reduceCtorEq]
      exact (List.map_id _).symm

end Shelf

namespace DriveState

variable {s t : DriveState} {f : FileId} {sh : Shelf}

/-- A shelf is told by its versions and by what their documents are. -/
theorem shelf_of (hv : sh.versions = t.versions f)
    (hd : ∀ c ∈ sh, ∃ r, t.doc c.id = some r ∧ c.row = r.unversioned) : t.shelf f = sh := by
  have hall : ∀ sh : Shelf, (∀ c ∈ sh, ∃ r, t.doc c.id = some r ∧ c.row = r.unversioned) →
      (sh.versions.filterMap fun v => (t.doc v.documentId).map fun r =>
        ({ version := v, row := r.unversioned } : Copy)) = sh := by
    intro sh
    induction sh with
    | nil => exact fun _ => rfl
    | cons c sh ih =>
      intro hsh
      obtain ⟨r, hr, hrow⟩ := hsh c (by simp)
      have hr' : t.doc c.version.documentId = some r := hr
      have hrest := ih fun c' hc' => hsh c' (by simp [hc'])
      simp only [Shelf.versions, List.map_cons, List.filterMap_cons, hr', Option.map_some,
        ← hrow] at hrest ⊢
      rw [hrest]
  rw [shelf, ← hv]
  exact hall sh hd

end DriveState

section Refinement

variable {sv : Services} {cfg : DriveConfig} {s t u : DriveState} {f : FileId} {w : World}

theorem revisited_unversioned (vs : List FileVersion) (row : DriveFileRow)
    (tier : Classification) (d : DocumentId) (r : Document) :
    (revisited vs row tier d r).unversioned = revisited vs row tier d r.unversioned := by
  have hshown : (if comesBack vs row = some d then r.shown else r).unversioned =
      if comesBack vs row = some d then r.unversioned.shown else r.unversioned := by
    split
    · exact Document.shown_unversioned r
    · rfl
  unfold revisited
  dsimp only
  split
  · rw [Document.retiered_unversioned, hshown]
  · exact hshown

theorem revisit_shelf (hs : Tracked s) {row : DriveFileRow} {tier : Classification}
    (hu : Rewrites s u (revisited (s.versions f) row tier)) :
    (u.putVersions f (afterReturn (s.versions f) row)).shelf f =
      (s.shelf f).revisit row tier := by
  rw [Shelf.revisit_eq, DriveState.shelf_versions hs f]
  refine DriveState.shelf_map (g := fun v =>
    if row.state = .removed then
      match lastRemoved (s.versions f) with
      | none => v
      | some last => v.marked last.documentId .pending
    else v) (h := revisited (s.versions f) row tier) (fun v => ?_) ?_ fun d _ => ?_
  · split
    · cases lastRemoved (s.versions f) with
      | none => rfl
      | some last => exact FileVersion.marked_documentId _ _ _
    · rfl
  · rw [DriveState.putVersions_versions, afterReturn]
    split
    · cases hl : lastRemoved (s.versions f) with
      | none => rw [returnedVersions_none hl, List.map_id']
      | some last => rw [returnedVersions_some hl]
    · exact (List.map_id' _).symm
  · rw [DriveState.putVersions_doc, hu.docs, Option.map_map, Option.map_map]
    cases s.doc d with
    | none => rfl
    | some r => exact congrArg some (revisited_unversioned _ _ _ _ _)

theorem retire_shelf (hs : Tracked s) {row : DriveFileRow} (hrow : s.file f = some row) :
    (retireFile s f).shelf f = (s.shelf f).retire s.world.now row := by
  obtain ⟨w, -, hdocs, ht⟩ := retireFile_spec hrow
  rw [ht, Shelf.retire, Shelf.targets, DriveState.shelf_versions hs f]
  refine DriveState.shelf_map (g := FileVersion.retired .removed)
    (h := fun d r => if d ∈ DriveSyncService.targets (s.versions f) row then
      r.hidden s.world.now else r) (fun v => FileVersion.retired_documentId _ v)
    (by rw [DriveState.putFile_versions, DriveState.putVersions_versions]) fun d _ => ?_
  show (w.doc d).map Document.unversioned = _
  rw [hdocs, Option.map_map, Option.map_map]
  cases s.doc d with
  | none => rfl
  | some r =>
    refine congrArg some ?_
    simp only [Function.comp_apply]
    split
    · exact Document.hidden_unversioned r _
    · rfl

theorem settled_version {c : Copy} {r : Document} (hr : s.doc c.id = some r)
    (hrow : c.row = r.unversioned) :
    DriveSyncService.settled s.world c.version = c.settled.version := by
  have hr' : s.world.doc c.version.documentId = some r := hr
  have hst : c.row.status = r.status := by rw [hrow]; rfl
  unfold DriveSyncService.settled Copy.settled
  rw [hr', hst]
  simp only [Option.map_some]
  split
  · rfl
  · split
    · rfl
    · split <;> rfl

@[simp] theorem Copy.settled_id (c : Copy) : c.settled.id = c.id := by
  unfold Copy.settled
  split
  · rfl
  · split
    · rfl
    · split <;> rfl

@[simp] theorem Copy.settled_row (c : Copy) : c.settled.row = c.row := by
  unfold Copy.settled
  split
  · rfl
  · split
    · rfl
    · split <;> rfl

theorem Copy.outdated_version (now : Nat) (c : Copy) :
    (c.outdated now).version = c.version.retired .superseded := by
  by_cases h : c.version.live = true <;>
    simp [Copy.outdated, FileVersion.retired, Copy.live, Copy.inState, h]

@[simp] theorem Copy.outdated_id (now : Nat) (c : Copy) : (c.outdated now).id = c.id := by
  unfold Copy.outdated
  split <;> rfl

theorem settled_shelf_versions (hs : Tracked s) :
    Shelf.versions ((s.shelf f).map Copy.settled) =
      (s.versions f).map (DriveSyncService.settled s.world) := by
  have hv := congrArg (List.map (DriveSyncService.settled s.world))
    (DriveState.shelf_versions hs f)
  rw [← hv, Shelf.versions, Shelf.versions, List.map_map, List.map_map]
  refine List.map_congr_left fun c hc => ?_
  obtain ⟨-, r, hr, hrow⟩ := DriveState.mem_shelf.mp hc
  exact (settled_version hr hrow).symm

theorem mem_settled_shelf {c : Copy} (hc : c ∈ (s.shelf f).map Copy.settled) :
    ∃ r, s.doc c.id = some r ∧ c.row = r.unversioned := by
  obtain ⟨c', hc', rfl⟩ := List.mem_map.mp hc
  obtain ⟨-, r, hr, hrow⟩ := DriveState.mem_shelf.mp hc'
  exact ⟨r, by rw [Copy.settled_id]; exact hr, by rw [Copy.settled_row]; exact hrow⟩

theorem settled_ids_nodup (hs : Tracked s) :
    (((s.shelf f).map Copy.settled).map Copy.id).Nodup := by
  have hids : ((s.shelf f).map Copy.settled).map Copy.id = s.ids f := by
    rw [List.map_map, ← DriveState.shelf_ids hs f]
    exact List.map_congr_left fun c _ => Copy.settled_id c
  rw [hids]
  exact hs.nodup f

theorem reconcile_shelf (hs : Tracked s) :
    (reconcileFile sv s f).shelf f = (s.shelf f).reconcile s.world.now := by
  have hversions := settled_shelf_versions (f := f) hs
  have hrows : ∀ c ∈ (s.shelf f).map Copy.settled, ∃ r, s.doc c.id = some r ∧
      c.row = r.unversioned := fun c hc => mem_settled_shelf hc
  have hnodup := settled_ids_nodup (f := f) hs
  unfold Shelf.reconcile
  dsimp only
  generalize (s.shelf f).map Copy.settled = sh at hversions hrows hnodup
  have hlast : ((s.versions f).map (DriveSyncService.settled s.world)).getLast? =
      sh.getLast?.map Copy.version := by
    rw [← hversions, Shelf.versions, List.getLast?_map]
  have hspec := reconcileFile_spec sv s f
  generalize reconcileFile sv s f = t at hspec ⊢
  cases hspec with
  | waits hn =>
    have hsame : (s.putVersions f ((s.versions f).map
        (DriveSyncService.settled s.world))).shelf f = sh :=
      DriveState.shelf_of (by rw [DriveState.putVersions_versions, hversions]) hrows
    rw [hsame]
    cases hl : sh.getLast? with
    | none => rfl
    | some newest =>
      refine (if_pos ?_).symm
      by_contra hno
      obtain ⟨hp, hst⟩ := not_or.mp hno
      obtain ⟨r, hr, hrow⟩ := hrows newest (List.mem_of_getLast? hl)
      refine hn newest.version (by rw [hlast, hl]; rfl) (not_not.mp hp) ?_
      have hr' : s.doc newest.version.documentId = some r := hr
      have hst' : r.status = .live := by
        rw [hrow] at hst
        exact not_not.mp hst
      rw [hr', Option.map_some, hst']
  | promotes older newest w hv hp hl hobjects hdocs =>
    rw [hv, List.getLast?_append_of_ne_nil _ (by simp), List.getLast?_singleton] at hlast
    obtain ⟨n, hn, rfl⟩ := Option.map_eq_some_iff.mp hlast.symm
    have hsplit : sh = sh.dropLast ++ [n] := (List.dropLast_append_getLast? n hn).symm
    obtain ⟨rn, hrn, hrown⟩ := hrows n (List.mem_of_getLast? hn)
    have hstatus : n.row.status = .live := by
      have hrn' : s.doc n.version.documentId = some rn := hrn
      rw [hrn', Option.map_some] at hl
      rw [hrown]
      exact Option.some.inj hl
    have holder : sh.dropLast.map Copy.version = older := by
      have hboth := hversions.trans hv
      rw [hsplit, Shelf.versions, List.map_append] at hboth
      exact List.append_inj_left' hboth rfl
    rw [hn]
    have hcond : ¬ (n.version.state ≠ .pending ∨ n.row.status ≠ .live) := by
      rw [not_or, not_not, not_not]
      exact ⟨hp, hstatus⟩
    dsimp only
    rw [if_neg hcond]
    rw [hsplit, List.map_append, List.nodup_append] at hnodup
    obtain ⟨hnd, -, hdis⟩ := hnodup
    -- a document is retired just where its own version is open
    have hold : ∀ c ∈ sh.dropLast, c.id ∈ outdated older ↔ c.live = true := by
      intro c hc
      unfold outdated
      rw [← holder]
      constructor
      · intro hm
        obtain ⟨v, hv', hid⟩ := List.mem_map.mp hm
        obtain ⟨hv'', hlive⟩ := List.mem_filter.mp hv'
        obtain ⟨c', hc', rfl⟩ := List.mem_map.mp hv''
        have hcc : c' = c := List.inj_on_of_nodup_map hnd hc' hc hid
        rw [← hcc]
        exact hlive
      · intro hlive
        exact List.mem_map.mpr ⟨c.version, List.mem_filter.mpr
          ⟨List.mem_map_of_mem hc, hlive⟩, rfl⟩
    have hnew : n.id ∉ outdated older := by
      intro hm
      obtain ⟨v, hv', hid⟩ := List.mem_map.mp hm
      rw [← holder] at hv'
      obtain ⟨c', hc', rfl⟩ := List.mem_map.mp (List.mem_filter.mp hv').1
      exact hdis c'.id (List.mem_map_of_mem hc') n.id (by simp) hid
    have hrowOf : ∀ d r, s.doc d = some r →
        ∃ r', w.doc d = some r' ∧
          r'.unversioned = (supersededRow s.world (outdated older) d r).unversioned := by
      intro d r hr
      have hd := hdocs d
      rw [hr, Option.map_some] at hd
      obtain ⟨r', hr', he⟩ := Option.map_eq_some_iff.mp hd
      exact ⟨r', hr', he⟩
    refine DriveState.shelf_of ?_ fun c hc => ?_
    · rw [DriveState.putVersions_versions, ← holder, Shelf.versions, List.map_append, List.map_map,
        List.map_map]
      exact congrArg₂ (· ++ ·) (List.map_congr_left fun c _ => Copy.outdated_version _ c) rfl
    · show ∃ r, w.doc c.id = some r ∧ c.row = r.unversioned
      rcases List.mem_append.mp hc with hc | hc
      · obtain ⟨c', hc', rfl⟩ := List.mem_map.mp hc
        obtain ⟨r, hr, hrow⟩ := hrows c' (List.dropLast_subset _ hc')
        obtain ⟨r', hr', he⟩ := hrowOf c'.id r hr
        refine ⟨r', by rw [Copy.outdated_id]; exact hr', ?_⟩
        have hpurged : c'.row.purgedAt = r.purgedAt := by rw [hrow]; rfl
        have hpurged' : r.unversioned.purgedAt = r.purgedAt := rfl
        have hm := hold c' hc'
        rw [he, supersededRow_unversioned, supersededRow, Copy.outdated]
        by_cases hlive : c'.live = true
        · by_cases hp : r.purgedAt = none <;> simp [hlive, hm, hp, hrow, hpurged']
        · simp [hlive, hm, hrow]
      · obtain rfl := List.mem_singleton.mp hc
        obtain ⟨r', hr', he⟩ := hrowOf n.id rn hrn
        refine ⟨r', hr', ?_⟩
        rw [he, supersededRow, if_neg fun h => hnew h.1]
        exact hrown

end Refinement

end KnowledgeBase
