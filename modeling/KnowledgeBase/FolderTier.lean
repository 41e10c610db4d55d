import KnowledgeBase.Reconciling

/-! The tier of the folder a file lies in, and who may read what the file became: edits, moves,
failures and returns against the tier that is remembered of the file. -/

namespace KnowledgeBase

open Program DriveSyncService

/-- Visible, or still in the pipeline. -/
def DocumentStatus.underway : DocumentStatus → Bool
  | uploaded | quarantined | validated | extracted | awaitingClassification | chunked | live => true
  | _ => false

/-- Statuses at which no stage takes a document up again. -/
def overStatuses : List DocumentStatus :=
  [.rejected, .duplicate, .extractionFailed, .normalizationFailed]

theorem idle_of_over {status : DocumentStatus} (h : status ∈ overStatuses) (stage : JobStage) :
    Idle stage status := by
  simp only [overStatuses, List.mem_cons, List.not_mem_nil, or_false] at h
  rcases h with rfl | rfl | rfl | rfl <;> cases stage <;> decide

theorem not_over_of_underway {status : DocumentStatus} (h : status.underway = true) :
    status ∉ overStatuses := by
  cases status <;> simp [DocumentStatus.underway, overStatuses] at h ⊢

theorem not_underway_of_failed {status : DocumentStatus}
    (h : status = .duplicate ∨ status ∈ failedStatuses) : status.underway = false := by
  rcases h with rfl | h
  · rfl
  · cases status <;> simp [DocumentStatus.underway, failedStatuses] at h ⊢

/-- Nobody sets a tier by hand. -/
def SyncAction.KeepsTiers : SyncAction → Prop
  | .classify _ _ => False
  | _ => True

/-- The row is not RESTRICTED, and not over either. -/
def Document.Open (r : Document) : Prop :=
  r.status ∉ overStatuses ∧ r.classification ≠ some .restricted

instance (r : Document) : Decidable r.Open :=
  inferInstanceAs (Decidable (r.status ∉ overStatuses ∧ r.classification ≠ some .restricted))

namespace Shelf

/-- No open version has a document that others than the few may come to see. -/
def Guarded (sh : Shelf) : Prop := ∀ c ∈ sh, c.live = true → ¬ c.row.Open

/-- What was given up stays given up. -/
def Spent (sh : Shelf) : Prop :=
  ∀ c ∈ sh, c.version.state = .failed ∨ c.version.state = .duplicate →
    c.row.status.underway = false

variable {sh : Shelf} {row : DriveFileRow} {now : Nat}

theorem restricted_of_guarded (hs : ∀ c ∈ sh, c.Sound) (hspent : sh.Spent) (h : sh.Guarded)
    {c : Copy} (hc : c ∈ sh) (hd : c.row.deletedAt = none) (hu : c.row.status.underway = true) :
    c.row.classification = some .restricted := by
  have hlive : c.live = true := by
    rw [c.live_iff]
    cases hst : c.version.state with
    | current => exact .inl rfl
    | pending => exact .inr rfl
    | superseded => exact absurd hd ((hs c hc).hidden (.inl hst))
    | removed => exact absurd hd ((hs c hc).hidden (.inr hst))
    | failed =>
      have hno := hspent c hc (.inl hst)
      rw [hu] at hno
      cases hno
    | duplicate =>
      have hno := hspent c hc (.inr hst)
      rw [hu] at hno
      cases hno
  by_contra hne
  exact h c hc hlive ⟨not_over_of_underway hu, hne⟩

/-- A move into the RESTRICTED tree reaches every open version. -/
theorem retier_guarded (hs : ∀ c ∈ sh, c.Sound) : (sh.retier row .restricted).Guarded := by
  intro c hc hl
  obtain ⟨c', hc', rfl⟩ := List.mem_map.mp hc
  have hlive : c'.live = true := by
    split at hl
    · exact hl
    · exact hl
  have htarget : c'.id ∈ sh.targets row := mem_targets.mpr (.inl ⟨c', hc', hlive, rfl⟩)
  rw [if_pos htarget]
  rintro ⟨-, hne⟩
  rw [retiered, if_pos (hs c' hc').unpurged] at hne
  exact hne rfl

theorem retire_guarded : (sh.retire now row).Guarded := by
  intro c hc hl
  rw [retire_live hc] at hl
  cases hl

theorem shown_status (r : Document) :
    r.shown.status = r.status ∧ r.shown.classification = r.classification := by
  unfold Document.shown
  split <;> exact ⟨rfl, rfl⟩

/-- What comes back is all that a return adds to the open versions. -/
theorem bringBack_guarded (hn : (sh.map Copy.id).Nodup) (h : sh.Guarded)
    (hback : ∀ last, (sh.filter (·.version.state = .removed)).getLast? = some last →
      ¬ last.row.Open) : (sh.bringBack row).Guarded := by
  have hshown : ∀ r : Document, r.shown.Open → r.Open := by
    intro r hr
    obtain ⟨hst, hcl⟩ := shown_status r
    exact ⟨hst ▸ hr.1, hcl ▸ hr.2⟩
  intro c hc hl
  unfold bringBack at hc
  split at hc
  · rename_i last hlast
    have hm : last ∈ sh := (List.mem_filter.mp (List.mem_of_getLast? hlast)).1
    obtain ⟨c', hc', rfl⟩ := List.mem_map.mp hc
    by_cases hid : c'.id = last.id
    · rw [if_pos hid]
      obtain rfl := List.inj_on_of_nodup_map hn hc' hm hid
      exact fun ho => hback c' hlast (hshown _ ho)
    · rw [if_neg hid] at hl ⊢
      exact h c' hc' hl
  · obtain ⟨c', hc', rfl⟩ := List.mem_map.mp hc
    by_cases hid : row.documentId = some c'.id
    · rw [if_pos hid] at hl ⊢
      exact fun ho => h c' hc' hl (hshown _ ho)
    · rw [if_neg hid] at hl ⊢
      exact h c' hc' hl

theorem settled_live {c : Copy} (h : c.settled.live = true) : c.live = true ∧ c.settled = c := by
  rcases c.settled_cases with he | ⟨-, ⟨-, he⟩ | ⟨-, he⟩⟩
  · exact ⟨he ▸ h, he⟩
  · rw [he] at h
    cases h
  · rw [he] at h
    cases h

theorem reconcile_guarded (h : sh.Guarded) : (sh.reconcile now).Guarded := by
  intro c hc hl
  rcases reconcile_cases now sh with ⟨he, -⟩ | ⟨older, newest, hsh, hp, -, he⟩
  · rw [he] at hc
    obtain ⟨c', hc', rfl⟩ := List.mem_map.mp hc
    obtain ⟨hl', hsame⟩ := settled_live hl
    rw [hsame]
    exact h c' hc' hl'
  · rw [he] at hc
    rcases List.mem_append.mp hc with hc | hc
    · obtain ⟨c', hc', rfl⟩ := List.mem_map.mp hc
      rw [Copy.outdated_state] at hl
      cases hl
    · obtain rfl := List.mem_singleton.mp hc
      exact h newest (by rw [hsh]; simp) (newest.live_iff.mpr (.inr hp))

/-- What no copy of the second shelf can be but the first had it so. -/
theorem Spent.of_before {sh' : Shelf} (h : sh.Spent)
    (hback : ∀ c' ∈ sh', c'.version.state = .failed ∨ c'.version.state = .duplicate →
      c'.row.status.underway = true →
      ∃ c ∈ sh, (c.version.state = .failed ∨ c.version.state = .duplicate) ∧
        c.row.status.underway = true) : sh'.Spent := by
  intro c' hc' hst
  by_contra hu
  obtain ⟨c, hc, hst', hu'⟩ := hback c' hc' hst (Bool.not_eq_false _ ▸ hu)
  rw [h c hc hst'] at hu'
  cases hu'

/-- A copy that was given up stays given up, and in the same state. -/
def GivenUpBefore (sh : Shelf) (c' : Copy) : Prop :=
  c'.version.state = .failed ∨ c'.version.state = .duplicate → c'.row.status.underway = true →
    ∃ c ∈ sh, (c.version.state = .failed ∨ c.version.state = .duplicate) ∧
      c.row.status.underway = true

theorem givenUp_same {c c' : Copy} (hc : c ∈ sh) (hv : c'.version.state = c.version.state)
    (hst : c'.row.status = c.row.status) : sh.GivenUpBefore c' :=
  fun hg hu => ⟨c, hc, hv ▸ hg, hst ▸ hu⟩

theorem revisit_spent {tier : Classification} (h : sh.Spent) : (sh.revisit row tier).Spent := by
  refine h.of_before fun c' hc' => ?_
  rw [revisit_eq] at hc'
  obtain ⟨c, hc, rfl⟩ := List.mem_map.mp hc'
  have hstatus := revisited_status sh.versions row tier c.id c.row
  intro hg hu
  refine ⟨c, hc, ?_, hstatus ▸ hu⟩
  dsimp only at hg
  split at hg
  · cases hl : lastRemoved sh.versions with
    | none =>
      rw [hl] at hg
      exact hg
    | some v =>
      rw [hl] at hg
      dsimp only at hg
      unfold FileVersion.marked at hg
      split at hg
      · rcases hg with hg | hg <;> cases hg
      · exact hg
  · exact hg

theorem retire_spent (h : sh.Spent) : (sh.retire now row).Spent := by
  refine h.of_before fun c' hc' => ?_
  obtain ⟨c, hc, rfl⟩ := List.mem_map.mp hc'
  intro hg hu
  have hstatus : (if c.id ∈ sh.targets row then c.row.hidden now else c.row).status =
      c.row.status := by
    split
    · unfold Document.hidden
      split <;> rfl
    · rfl
  dsimp only at hg hu
  rw [hstatus] at hu
  refine ⟨c, hc, ?_, hu⟩
  unfold FileVersion.retired at hg
  split at hg
  · rcases hg with hg | hg <;> cases hg
  · exact hg

theorem settled_spent (h : sh.Spent) {c : Copy} (hc : c ∈ sh)
    (hg : c.settled.version.state = .failed ∨ c.settled.version.state = .duplicate) :
    c.row.status.underway = false := by
  rcases c.settled_cases with he | ⟨-, ⟨hst, -⟩ | ⟨hst, -⟩⟩
  · rw [he] at hg
    exact h c hc hg
  · exact not_underway_of_failed (.inl hst)
  · exact not_underway_of_failed (.inr hst)

theorem reconcile_spent (h : sh.Spent) : (sh.reconcile now).Spent := by
  intro c hc hg
  rcases reconcile_cases now sh with ⟨he, -⟩ | ⟨older, newest, hsh, -, -, he⟩
  · rw [he] at hc
    obtain ⟨c', hc', rfl⟩ := List.mem_map.mp hc
    rw [Copy.settled_row]
    exact settled_spent h hc' hg
  · rw [he] at hc
    rcases List.mem_append.mp hc with hc | hc
    · obtain ⟨c', hc', rfl⟩ := List.mem_map.mp hc
      have hm : c' ∈ sh := hsh ▸ List.mem_append_left _ hc'
      by_cases hl : c'.settled.live = true
      · rw [Copy.outdated, if_pos hl] at hg
        rcases hg with hg | hg <;> cases hg
      · rw [Copy.outdated, if_neg hl] at hg ⊢
        rw [Copy.settled_row]
        exact settled_spent h hm hg
    · obtain rfl := List.mem_singleton.mp hc
      rcases hg with hg | hg <;> cases hg

end Shelf

/-- The tier that is remembered of a file. -/
def DriveState.remembered (s : DriveState) (f : FileId) : Option Classification :=
  (s.file f).bind DriveFileRow.classification

/-- An open version of the file has a document that is not RESTRICTED and not over. -/
def DriveState.OpenToAll (s : DriveState) (f : FileId) : Prop :=
  ∃ v ∈ s.versions f, v.live = true ∧ ∃ r ∈ s.doc v.documentId, r.Open

instance (s : DriveState) (f : FileId) : Decidable (s.OpenToAll f) := by
  unfold DriveState.OpenToAll
  infer_instance

/-- A file that comes to lie in the RESTRICTED tree has the content it had, so that it is
reclassified, or nothing of it is open to all; and one that comes back to where it was brings
back nothing that is open to all. -/
def DriveState.EntersRestricted (s : DriveState) (item : DriveFile) : Prop :=
  (s.remembered item.fileId ≠ some .restricted →
    (∃ row ∈ known (s.file item.fileId), contentChanged row item = false) ∨
      ¬ s.OpenToAll item.fileId) ∧
  (s.remembered item.fileId = some .restricted →
    ∀ row ∈ known (s.file item.fileId), row.state = .removed → contentChanged row item = false →
      ∀ v ∈ lastRemoved (s.versions item.fileId), ∀ r ∈ s.doc v.documentId, ¬ r.Open)

instance (s : DriveState) (item : DriveFile) : Decidable (s.EntersRestricted item) := by
  unfold DriveState.EntersRestricted
  infer_instance

namespace SyncState

def nextEntry (s : SyncState) : Option Entry :=
  match s.pass with
  | some { phase := .syncing (e :: _), .. } => some e
  | _ => none

/-- What may not happen where a file comes to lie in the RESTRICTED tree; and no stage takes up
a document whose version was given up. -/
def Confined (s : SyncState) : SyncAction → Prop
  | .syncItem _ _ _ =>
    ∀ e ∈ s.nextEntry, e.2.1 = .restricted → s.store.EntersRestricted e.1
  | .stage stage id _ _ =>
    ∀ p ∈ s.store.files, ∀ v ∈ s.store.versions p.1, v.documentId = id →
      v.state = .failed ∨ v.state = .duplicate → ∀ r ∈ s.store.doc id, Idle stage r.status
  | _ => True

instance (s : SyncState) (a : SyncAction) : Decidable (s.Confined a) := by
  unfold Confined
  split <;> infer_instance

variable {sv : Services} {cfg : DriveConfig} {s t : SyncState} {a : SyncAction} {f : FileId}

theorem nextEntry_of_next {e : Entry} (h : s.Next e) : s.nextEntry = some e := by
  obtain ⟨listing, limited, items, hp⟩ := h
  rw [nextEntry, hp]

theorem openToAll_of_not_guarded (h : ¬ s.store.OpenToAll f) : (s.store.shelf f).Guarded := by
  intro c hc hl ho
  obtain ⟨hv, r, hr, hrow⟩ := DriveState.mem_shelf.mp hc
  rw [hrow] at ho
  exact h ⟨c.version, hv, hl, r, hr, ho⟩

theorem lastRemoved_copy (hs : Tracked s.store) {last : Copy}
    (h : ((s.store.shelf f).filter (·.version.state = .removed)).getLast? = some last) :
    lastRemoved (s.store.versions f) = some last.version ∧
      ∃ r, s.store.doc last.id = some r ∧ last.row = r.unversioned := by
  have hv := Shelf.lastRemoved_versions (s.store.shelf f)
  rw [DriveState.shelf_versions hs f, h] at hv
  have hm : last ∈ s.store.shelf f := (List.mem_filter.mp (List.mem_of_getLast? h)).1
  exact ⟨hv, (DriveState.mem_shelf.mp hm).2⟩

/-- The file's documents are guarded while RESTRICTED is what is remembered of it. -/
theorem guarded_of_step (hs : InOrder f s)
    (h : s.store.remembered f = some .restricted → (s.store.shelf f).Guarded)
    (ha : a.HandsOff) (hk : a.KeepsTiers) (hok : s.Confined a) (hstep : FileStep sv cfg f s a t) :
    t.store.remembered f = some .restricted → (t.store.shelf f).Guarded := by
  have hnodup := shelf_nodup hs.tracked f
  have hsound := hs.orderly.sound
  have hsame : t.store.file f = s.store.file f →
      t.store.remembered f = s.store.remembered f := fun he => by
    rw [DriveState.remembered, he, DriveState.remembered]
  cases hstep with
  | aside a t hfile hshelf =>
    rw [hsame hfile, hshelf]
    exact h
  | revisits id fetched luck item tier folderId row t hf hnext hk' hc hfile hshelf =>
    subst hf
    intro htier
    have hnew : tier = .restricted := by
      rw [DriveState.remembered, hfile] at htier
      exact Option.some.inj htier
    subst hnew
    obtain ⟨hrow, -, -⟩ := known_row hk'
    have hremembered : s.store.remembered item.fileId = row.classification := by
      rw [DriveState.remembered, hrow]
      rfl
    have hok' := hok _ (nextEntry_of_next hnext) rfl
    rw [hshelf]
    unfold Shelf.revisit
    dsimp only
    by_cases hmoved : row.classification ≠ some .restricted
    · rw [if_pos hmoved]
      refine Shelf.retier_guarded fun c hc' => ?_
      split at hc'
      · exact Shelf.bringBack_sound hsound (hs.orderly.newest row hrow) c hc'
      · exact hsound c hc'
    · rw [if_neg hmoved]
      have hstays : s.store.remembered item.fileId = some .restricted :=
        hremembered.trans (not_not.mp hmoved)
      split
      · rename_i hremoved
        refine Shelf.bringBack_guarded hnodup (h hstays) fun last hlast ho => ?_
        obtain ⟨hv, r, hr, hcr⟩ := lastRemoved_copy hs.tracked hlast
        rw [hcr] at ho
        exact hok'.2 hstays row hk' hremoved hc _ hv r hr ho
      · exact h hstays
  | passesOver id fetched luck item tier folderId state reason t hf hnext hn hstate hfile hshelf =>
    subst hf
    intro htier
    have hnew : tier = .restricted := by
      rw [DriveState.remembered, hfile] at htier
      exact Option.some.inj htier
    subst hnew
    rw [hshelf]
    by_cases hstays : s.store.remembered item.fileId = some .restricted
    · exact h hstays
    · have hok' := hok _ (nextEntry_of_next hnext) rfl
      refine openToAll_of_not_guarded ((hok'.1 hstays).resolve_left ?_)
      rintro ⟨row, hrow, hc⟩
      rw [hn row hrow] at hc
      cases hc
  | imports id fetched luck item tier folderId data mimeType t hf hnext hfresh hn hd hm hfile
      hshelf =>
    subst hf
    intro htier
    have hnew : tier = .restricted := by
      rw [DriveState.remembered, hfile] at htier
      exact Option.some.inj htier
    subst hnew
    have hold : (s.store.shelf item.fileId).Guarded := by
      by_cases hstays : s.store.remembered item.fileId = some .restricted
      · exact h hstays
      · have hok' := hok _ (nextEntry_of_next hnext) rfl
        refine openToAll_of_not_guarded ((hok'.1 hstays).resolve_left ?_)
        rintro ⟨row, hrow, hc⟩
        rw [hn row hrow] at hc
        cases hc
    rw [hshelf]
    intro c hc hl
    rcases List.mem_append.mp hc with hc | hc
    · exact hold c hc hl
    · obtain rfl := List.mem_singleton.mp hc
      rintro ⟨-, hne⟩
      refine hne (congrArg some ?_)
      show importTier s.store (edited (s.store.file item.fileId)) .restricted = .restricted
      unfold importTier
      split
      · rfl
      · unfold inherited
        split
        · rfl
        · split
          · rfl
          · rename_i earlier _
            cases earlier <;> rfl
  | retires listing limited files row t hp hrow hfile hshelf =>
    rw [hshelf]
    exact fun _ => Shelf.retire_guarded
  | reconciles listing limited files t hp hfile hshelf =>
    rw [hsame hfile, hshelf]
    exact fun htier => Shelf.reconcile_guarded (h htier)
  | works stage id luck operations t hfile hshelf hidle =>
    rw [hsame hfile]
    intro htier c' hc' hl ho
    obtain ⟨c, hc, hv, hw⟩ := before_of_mem hshelf hc'
    have hl' : c.live = true := by rw [Copy.live, ← hv]; exact hl
    by_cases hover : c.id = id ∧ c.row.status ∈ overStatuses
    · have hsame := hidle c hc hover.1 (idle_of_over hover.2 stage)
      rw [hsame] at hc'
      exact h htier c' hc' hl ho
    · refine h htier c hc hl' ⟨fun hst => hover ⟨?_, hst⟩, fun hcl => ?_⟩
      · by_contra hne
        have hrow := (hw.other fun he => hne ((shelf_row_id hc).symm.trans he)).1
        have hst' : c'.row.status = c.row.status := by rw [hrow]
        exact ho.1 (hst' ▸ hst)
      · refine ho.2 ?_
        by_cases hid : c.row.id = id
        · rw [(hw.own hid).1]
          exact hcl
        · rcases (hw.other hid).2 with he | he
          · rw [he]
            exact hcl
          · exact he
  | classifies id tier t hfile hshelf => exact hk.elim
  | restores id t hfile hshelf => exact ha.elim
  | erases id t hfile hshelf => exact ha.elim

theorem spent_of_step (hs : InOrder f s) (h : (s.store.shelf f).Spent) (ha : a.HandsOff)
    (hok : s.Confined a) (hstep : FileStep sv cfg f s a t) : (t.store.shelf f).Spent := by
  cases hstep with
  | aside a t hfile hshelf =>
    rw [hshelf]
    exact h
  | revisits id fetched luck item tier folderId row t hf hnext hk hc hfile hshelf =>
    rw [hshelf]
    exact Shelf.revisit_spent h
  | passesOver id fetched luck item tier folderId state reason t hf hnext hn hstate hfile hshelf =>
    rw [hshelf]
    exact h
  | imports id fetched luck item tier folderId data mimeType t hf hnext hfresh hn hd hm hfile
      hshelf =>
    rw [hshelf]
    intro c hc hg
    rcases List.mem_append.mp hc with hc | hc
    · exact h c hc hg
    · obtain rfl := List.mem_singleton.mp hc
      rcases hg with hg | hg <;> cases hg
  | retires listing limited files row t hp hrow hfile hshelf =>
    rw [hshelf]
    exact Shelf.retire_spent h
  | reconciles listing limited files t hp hfile hshelf =>
    rw [hshelf]
    exact Shelf.reconcile_spent h
  | works stage id luck operations t hfile hshelf hidle =>
    refine h.of_before fun c' hc' => ?_
    obtain ⟨c, hc, hv, hw⟩ := before_of_mem hshelf hc'
    by_cases hid : c.row.id = id
    · intro hg hu
      have hcid : c.id = id := (shelf_row_id hc).symm.trans hid
      obtain ⟨hver, r, hr, hrow⟩ := DriveState.mem_shelf.mp hc
      have hids : s.store.ids f ≠ [] := List.ne_nil_of_mem (List.mem_map_of_mem hver)
      obtain ⟨row, hfile'⟩ := hs.tracked.file_of_ids hids
      have hmem : (f, row) ∈ s.store.files := (Table.mem_iff_get hs.tracked.keys).mpr hfile'
      have hg' : c.version.state = .failed ∨ c.version.state = .duplicate := hv ▸ hg
      have hstill := hok (f, row) hmem c.version hver hcid hg' r (hcid ▸ hr)
      have hst : c.row.status = r.status := by rw [hrow]; rfl
      have hsame := hidle c hc hcid (hst ▸ hstill)
      rw [hsame] at hc'
      exact ⟨c', hc', hg, hu⟩
    · have hst : c'.row.status = c.row.status := by rw [(hw.other hid).1]
      exact Shelf.givenUp_same hc (by rw [hv]) hst
  | classifies id tier t hfile hshelf =>
    rw [hshelf]
    refine h.of_before fun c' hc' => ?_
    obtain ⟨c, hc, rfl⟩ := List.mem_map.mp hc'
    unfold Copy.rewritten
    split
    · exact Shelf.givenUp_same hc rfl rfl
    · exact Shelf.givenUp_same hc rfl rfl
  | restores id t hfile hshelf => exact ha.elim
  | erases id t hfile hshelf => exact ha.elim

/-- What is remembered of a file is changed by its own syncs only. -/
theorem remembered_of_step (hstep : FileStep sv cfg f s a t)
    (hother : ∀ id fetched luck, a = .syncItem id fetched luck →
      ∀ e, s.Next e → e.1.fileId ≠ f) :
    t.store.remembered f = s.store.remembered f := by
  have hsame : t.store.file f = s.store.file f →
      t.store.remembered f = s.store.remembered f := fun he => by
    rw [DriveState.remembered, he, DriveState.remembered]
  cases hstep with
  | aside a t hfile hshelf => exact hsame hfile
  | revisits id fetched luck item tier folderId row t hf hnext hk hc hfile hshelf =>
    exact absurd hf (hother _ _ _ rfl _ hnext)
  | passesOver id fetched luck item tier folderId state reason t hf hnext hn hstate hfile hshelf =>
    exact absurd hf (hother _ _ _ rfl _ hnext)
  | imports id fetched luck item tier folderId data mimeType t hf hnext hfresh hn hd hm hfile
      hshelf =>
    exact absurd hf (hother _ _ _ rfl _ hnext)
  | retires listing limited files row t hp hrow hfile hshelf =>
    rw [DriveState.remembered, hfile, DriveState.remembered, hrow]
    rfl
  | reconciles listing limited files t hp hfile hshelf => exact hsame hfile
  | works stage id luck operations t hfile hshelf hidle => exact hsame hfile
  | classifies id tier t hfile hshelf => exact hsame hfile
  | restores id t hfile hshelf => exact hsame hfile
  | erases id t hfile hshelf => exact hsame hfile

theorem remembered_of_synced {id : DocumentId} {fetched : Except Exn Bytes} {item : DriveFile}
    {tier : Classification} {folderId : FolderId} {u v : DriveState}
    (h : Synced cfg id fetched item tier folderId u v) :
    v.remembered item.fileId = some tier := by
  unfold DriveState.remembered
  cases h with
  | unchanged row w hk hc hw =>
    rw [DriveState.putFile_file, if_pos rfl]
    rfl
  | passedOver state reason hn hst =>
    rw [DriveState.putFile_file, if_pos rfl]
    rfl
  | imported data mimeType w hn hd hm hobjects hdocs =>
    rw [DriveState.putVersions_file, DriveState.putFile_file, if_pos rfl]
    rfl

/-- In a full pass a listed file is still to be synced, or is remembered at the tier it is
listed under. -/
def SeenTo (s : SyncState) (p : Pass) : Prop :=
  p.limited = false →
    (∀ items, p.phase = .syncing items → ∀ e ∈ items, (e.1.fileId, e) ∈ p.listing.found) ∧
    ∀ f e, (f, e) ∈ p.listing.found →
      (∃ items, p.phase = .syncing items ∧ e ∈ items) ∨ s.store.remembered f = some e.2.1

theorem seenTo_start (listing : Listing) (limit : Option Nat) :
    s.SeenTo { listing, limited := limit.isSome, phase := .syncing (listing.items limit) } := by
  intro hfull
  have hlimit : limit = none := Option.isSome_eq_false_iff.mp hfull |> Option.isNone_iff_eq_none.mp
  subst hlimit
  have hmem : ∀ e, e ∈ listing.items none ↔ ∃ g, (g, e) ∈ listing.found := by
    intro e
    show e ∈ (listing.found.map Prod.snd).insertionSort _ ↔ _
    rw [List.mem_insertionSort, List.mem_map]
    constructor
    · rintro ⟨⟨g, e'⟩, hg, rfl⟩
      exact ⟨g, hg⟩
    · rintro ⟨g, hg⟩
      exact ⟨(g, e), hg, rfl⟩
  constructor
  · intro items hphase e he
    obtain rfl := Phase.syncing.inj hphase
    obtain ⟨g, hg⟩ := (hmem e).mp he
    have hnamed : e.1.fileId = g := listing.named _ hg
    rw [hnamed]
    exact hg
  · exact fun f e he => .inl ⟨_, rfl, (hmem e).mpr ⟨f, he⟩⟩

/-- Nothing is synced in the step. -/
theorem SeenTo.kept {p q : Pass} (h : s.SeenTo p) (hlisting : q.listing = p.listing)
    (hlimited : q.limited = p.limited)
    (hphase : q.phase = p.phase ∨ p.phase = .syncing [] ∧ (∀ items, q.phase ≠ .syncing items) ∨
      (∀ items, p.phase ≠ .syncing items) ∧ ∀ items, q.phase ≠ .syncing items)
    (hremembered : ∀ f, t.store.remembered f = s.store.remembered f) : t.SeenTo q := by
  intro hfull
  obtain ⟨hitems, hall⟩ := h (hlimited ▸ hfull)
  rw [hlisting]
  rcases hphase with hsame | ⟨hdone, hnot⟩ | ⟨hnot', hnot⟩
  · rw [hsame]
    exact ⟨hitems, fun f e he => (hall f e he).imp id fun hr => (hremembered f).trans hr⟩
  · refine ⟨fun items hp => absurd hp (hnot items), fun f e he => .inr ?_⟩
    rcases hall f e he with ⟨items, hp, hm⟩ | hr
    · rw [hdone] at hp
      obtain rfl := Phase.syncing.inj hp
      cases hm
    · exact (hremembered f).trans hr
  · refine ⟨fun items hp => absurd hp (hnot items), fun f e he => .inr ?_⟩
    rcases hall f e he with ⟨items, hp, -⟩ | hr
    · exact absurd hp (hnot' items)
    · exact (hremembered f).trans hr

theorem seenTo_of_step (hs : Tracked s.store) (h : ∀ p, s.pass = some p → s.SeenTo p)
    (hstep : StepCases sv cfg s a t) : ∀ q, t.pass = some q → t.SeenTo q := by
  have hquiet : (∀ id fetched luck, a ≠ .syncItem id fetched luck) →
      ∀ f, t.store.remembered f = s.store.remembered f := fun hno f =>
    remembered_of_step (fileStep_of_cases hs hstep f) fun _ _ _ ha => absurd ha (hno _ _ _)
  intro q hq
  cases hstep with
  | begins listing limit hnone =>
    obtain rfl := Option.some.inj hq
    exact seenTo_start listing limit
  | syncs id fetched luck listing limited item tier folderId items store hp hfresh h' =>
    obtain rfl := Option.some.inj hq
    intro hfull
    obtain ⟨hitems, hall⟩ := h _ hp hfull
    refine ⟨fun rest hrest e he => ?_, fun f e he => ?_⟩
    · obtain rfl := Phase.syncing.inj hrest
      exact hitems _ rfl e (List.mem_cons_of_mem _ he)
    · by_cases hf : f = item.fileId
      · right
        subst hf
        have hhead := hitems _ rfl (item, tier, folderId) (by simp)
        have hsame := List.inj_on_of_nodup_map listing.keys he hhead rfl
        obtain rfl : e = (item, tier, folderId) := (Prod.mk.inj hsame).2
        exact remembered_of_synced h'
      · have hkept : DriveState.remembered store f = s.store.remembered f := by
          rw [DriveState.remembered, (hs.synced_aside hfresh h' hf).file, DriveState.remembered]
        rcases hall f e he with ⟨rest, hrest, hm⟩ | hr
        · obtain rfl := Phase.syncing.inj hrest
          rcases List.mem_cons.mp hm with rfl | hm
          · exact absurd (listing.named _ he).symm hf
          · exact .inl ⟨items, rfl, hm⟩
        · exact .inr (hkept.trans hr)
  | turnsToGone listing limited hp =>
    obtain rfl := Option.some.inj hq
    exact (h _ hp).kept rfl rfl (.inr (.inl ⟨rfl, nofun⟩)) fun _ => rfl
  | turnsToPending listing limited hp =>
    obtain rfl := Option.some.inj hq
    exact (h _ hp).kept rfl rfl (.inr (.inr ⟨nofun, nofun⟩)) fun _ => rfl
  | retires listing limited g files hp =>
    obtain rfl := Option.some.inj hq
    exact (h _ hp).kept rfl rfl (.inr (.inr ⟨nofun, nofun⟩)) (hquiet nofun)
  | reconciles listing limited g files hp =>
    obtain rfl := Option.some.inj hq
    exact (h _ hp).kept rfl rfl (.inr (.inr ⟨nofun, nofun⟩)) (hquiet nofun)
  | finishes listing limited hp => cases hq
  | works stage id luck operations w h' =>
    exact (h q hq).kept rfl rfl (.inl rfl) fun _ => rfl
  | classifies id tier store h' =>
    exact (h q hq).kept rfl rfl (.inl rfl) (hquiet nofun)
  | restores id store h' =>
    exact (h q hq).kept rfl rfl (.inl rfl) (hquiet nofun)
  | erases id store h' =>
    exact (h q hq).kept rfl rfl (.inl rfl) (hquiet nofun)

/-- What a history keeps of the tiers. -/
structure TiersKept (s : SyncState) : Prop where
  inOrder : ∀ f, InOrder f s
  guarded : ∀ f, s.store.remembered f = some .restricted → (s.store.shelf f).Guarded
  spent : ∀ f, (s.store.shelf f).Spent
  seenTo : ∀ p, s.pass = some p → s.SeenTo p

theorem tiersKept_of_step (hs : TiersKept s) (ha : a.HandsOff) (hk : a.KeepsTiers)
    (hok : s.Confined a) (h : StepCases sv cfg s a t) : TiersKept t where
  inOrder f := inOrder_of_step (hs.inOrder f) ha h
  guarded f := guarded_of_step (hs.inOrder f) (hs.guarded f) ha hk hok
    (fileStep_of_cases (hs.inOrder f).tracked h f)
  spent f := spent_of_step (hs.inOrder f) (hs.spent f) ha hok
    (fileStep_of_cases (hs.inOrder f).tracked h f)
  seenTo := seenTo_of_step (hs.inOrder default).tracked hs.seenTo h

theorem Fresh.tiersKept (h : s.Fresh) : TiersKept s where
  inOrder := h.inOrder
  guarded f := by
    intro hr
    rw [DriveState.remembered, DriveState.file, h.files] at hr
    cases hr
  spent f := by
    rw [h.shelf f]
    intro c hc
    cases hc
  seenTo p hp := by
    rw [h.pass] at hp
    cases hp

/-- After a full pass every document of a file listed under the RESTRICTED tree that is visible
or still in the pipeline is RESTRICTED. -/
def FolderBounds (s : SyncState) : Prop :=
  match s.pass with
  | some { listing, limited := false, phase := .reconciling [] } =>
    ∀ e ∈ listing.found, e.2.2.1 = .restricted → ∀ d ∈ s.store.ids e.1, ∀ r ∈ s.store.doc d,
      r.deletedAt = none → r.status.underway = true → r.classification = some .restricted
  | _ => True

instance (s : SyncState) : Decidable s.FolderBounds := by
  unfold FolderBounds
  split <;> infer_instance

/-- The folder bounds who may read a file along every history in which no file enters the
RESTRICTED tree with a document that stays open to all, and nothing that was given up goes on. -/
theorem folder_bounds {as : List SyncAction} (hs : s.Fresh)
    (h : Transition.Runs (step sv cfg)
      (fun s a => a.Undisturbed ∧ a.HandsOff ∧ a.KeepsTiers ∧ s.Confined a) s as t) :
    FolderBounds t := by
  have hinv : TiersKept t := h.invariant (I := TiersKept) (fun s a u hi hok hu =>
    tiersKept_of_step hi hok.2.1 hok.2.2.1 hok.2.2.2 (step_cases hu hok.1)) hs.tiersKept
  unfold FolderBounds
  split
  case h_2 => trivial
  rename_i listing hp
  intro e he htier d hd r hr hdel hunder
  obtain ⟨f, entry⟩ := e
  obtain ⟨-, hall⟩ := hinv.seenTo _ hp rfl
  have hremembered : t.store.remembered f = some .restricted := by
    rcases hall f entry he with ⟨items, hphase, -⟩ | hr
    · cases hphase
    · exact hr.trans (congrArg some htier)
  have hinOrder := hinv.inOrder f
  rw [← DriveState.shelf_ids hinOrder.tracked f] at hd
  obtain ⟨c, hc, rfl⟩ := List.mem_map.mp hd
  obtain ⟨-, r', hr', hrow⟩ := DriveState.mem_shelf.mp hc
  obtain rfl := Option.some.inj (hr'.symm.trans hr)
  have hrestricted := Shelf.restricted_of_guarded hinOrder.orderly.sound (hinv.spent f)
    (hinv.guarded f hremembered) hc (by rw [hrow]; exact hdel) (by rw [hrow]; exact hunder)
  rw [hrow] at hrestricted
  exact hrestricted

def memoIn (tier : Classification) (edition : String) : Listing :=
  .of [(memoFile "f" edition 1, tier, tier.value)] (by simp)

/-- Imported and live in the PUBLIC tree; then moved into the RESTRICTED tree and edited. -/
def movedAndEdited : List SyncAction :=
  fullPass (memoIn .public "1") [syncing 0 [37]] 0 1 ++ [.finish] ++ pipeline 0 ++
    fullPass (memoIn .restricted "2") [syncing 1 [38]] 0 1

theorem moved_and_edited_leaks : ¬ ∀ (sv : Services) (cfg : DriveConfig) (s t : SyncState)
    (as : List SyncAction), s.Fresh →
    Transition.Runs (step sv cfg) (fun _ a => a.Undisturbed ∧ a.HandsOff ∧ a.KeepsTiers) s as t →
    FolderBounds t := by
  intro hall
  have hgood : ∀ a ∈ movedAndEdited, a.Undisturbed ∧ a.HandsOff ∧ a.KeepsTiers := by
    simp [movedAndEdited, fullPass, pipeline, working, syncing, SyncAction.Undisturbed,
      SyncAction.HandsOff, SyncAction.KeepsTiers, DriveLuck.fine]
  have hrun : Transition.Runs (step tellingServices plainDrive)
      (fun _ a => a.Undisturbed ∧ a.HandsOff ∧ a.KeepsTiers) start movedAndEdited _ :=
    Transition.runs_of_exec_on (fun _ _ => true) _ (fun _ _ h _ => h) hgood (by decide +kernel)
  have hbounds := hall tellingServices plainDrive start _ _ start_fresh hrun
  revert hbounds
  decide +kernel

/-- Moved as it was. -/
def movedWhole : List SyncAction :=
  fullPass (memoIn .public "1") [syncing 0 [37]] 0 1 ++ [.finish] ++ pipeline 0 ++
    fullPass (memoIn .restricted "1") [syncing 1 [37]] 0 1

theorem moved_whole_bounded :
    FolderBounds (Transition.finalState (step tellingServices plainDrive) start movedWhole) := by
  have hgood : ∀ a ∈ movedWhole, a.Undisturbed ∧ a.HandsOff ∧ a.KeepsTiers := by
    simp [movedWhole, fullPass, pipeline, working, syncing, SyncAction.Undisturbed,
      SyncAction.HandsOff, SyncAction.KeepsTiers, DriveLuck.fine]
  exact folder_bounds start_fresh (Transition.runs_of_exec_on (fun s a => decide (s.Confined a)) _
    (fun _ _ h hc => ⟨h.1, h.2.1, h.2.2, of_decide_eq_true hc⟩) hgood (by decide +kernel))

end SyncState

end KnowledgeBase
