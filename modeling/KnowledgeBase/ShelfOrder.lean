import KnowledgeBase.FileSteps

/-! What the state of a version says of its document in every history in which nobody deletes
documents or brings them back by hand: an open version is not hidden, a retired one is. -/

namespace KnowledgeBase

open Program DriveSyncService

/-- Nobody deletes documents or brings them back by hand. -/
def SyncAction.HandsOff : SyncAction → Prop
  | .restoreInApp _ | .erase _ => False
  | _ => True

namespace Copy

structure Sound (c : Copy) : Prop where
  unpurged : c.row.purgedAt = none
  hidden : c.version.state = .superseded ∨ c.version.state = .removed → c.row.deletedAt ≠ none
  shown : c.live = true → c.row.deletedAt = none

variable {c : Copy} {row : Document}

theorem live_iff (c : Copy) :
    c.live = true ↔ c.version.state = .current ∨ c.version.state = .pending := by
  simp [live, FileVersion.live]

theorem live_eq_false (c : Copy) :
    c.live = false ↔ c.version.state ≠ .current ∧ c.version.state ≠ .pending := by
  rw [← Bool.not_eq_true, live_iff, not_or]

/-- Neither the deletion nor the state is touched. -/
theorem Sound.same (h : c.Sound) {c' : Copy} (hv : c'.version.state = c.version.state)
    (hd : c'.row.deletedAt = c.row.deletedAt) (hp : c'.row.purgedAt = c.row.purgedAt) :
    c'.Sound where
  unpurged := hp.trans h.unpurged
  hidden hs := by
    rw [hd]
    rw [hv] at hs
    exact h.hidden hs
  shown hl := by
    rw [hd]
    refine h.shown ?_
    rw [live_iff] at hl ⊢
    rwa [hv] at hl

theorem settled_cases (c : Copy) : c.settled = c ∨ c.version.state = .pending ∧
    (c.row.status = .duplicate ∧ c.settled = c.inState .duplicate ∨
      c.row.status ∈ failedStatuses ∧ c.settled = c.inState .failed) := by
  unfold settled
  split
  · exact .inl rfl
  · rename_i hp
    split
    · rename_i hs
      exact .inr ⟨not_not.mp hp, .inl ⟨hs, rfl⟩⟩
    · split
      · rename_i hs
        exact .inr ⟨not_not.mp hp, .inr ⟨hs, rfl⟩⟩
      · exact .inl rfl

theorem Sound.settled (h : c.Sound) : c.settled.Sound := by
  rcases c.settled_cases with he | ⟨-, ⟨-, he⟩ | ⟨-, he⟩⟩
  · rw [he]
    exact h
  · rw [he]
    exact ⟨h.unpurged, nofun, nofun⟩
  · rw [he]
    exact ⟨h.unpurged, nofun, nofun⟩

theorem Sound.outdated (h : c.Sound) (now : Nat) : (c.outdated now).Sound := by
  unfold Copy.outdated
  split
  · rw [if_pos h.unpurged]
    refine ⟨?_, fun _ => Document.retired_deletedAt _ now h.unpurged, nofun⟩
    show (c.row.retired now).purgedAt = none
    rw [Document.retired_purgedAt]
    exact h.unpurged
  · exact h

theorem outdated_state (now : Nat) (c : Copy) : (c.outdated now).live = false := by
  rw [live, outdated_version, FileVersion.retired]
  split
  · rfl
  · rename_i hl
    exact Bool.eq_false_iff.mpr hl

theorem shown_deletedAt {d : Document} (hp : d.purgedAt = none) : d.shown.deletedAt = none := by
  unfold Document.shown
  by_cases hd : d.deletedAt = none
  · rw [if_neg fun h => h.1 hd]
    exact hd
  · rw [if_pos ⟨hd, hp⟩]

theorem retiered_dates (tier : Classification) (d : Document) :
    (retiered tier d).deletedAt = d.deletedAt ∧ (retiered tier d).purgedAt = d.purgedAt := by
  unfold retiered
  split <;> exact ⟨rfl, rfl⟩

end Copy

namespace Shelf

variable {sh : Shelf} {row : DriveFileRow} {now : Nat} {tier : Classification}

theorem mem_targets {d : DocumentId} :
    d ∈ sh.targets row ↔ (∃ c ∈ sh, c.live = true ∧ c.id = d) ∨
      (∀ c ∈ sh, c.live = false) ∧ row.documentId = some d := by
  have hmem : ∀ e, e ∈ (sh.versions.filter FileVersion.live).map FileVersion.documentId ↔
      ∃ c ∈ sh, c.live = true ∧ c.id = e := by
    intro e
    simp only [versions, List.mem_map, List.mem_filter]
    constructor
    · rintro ⟨_, ⟨⟨c, hc, rfl⟩, hl⟩, rfl⟩
      exact ⟨c, hc, hl, rfl⟩
    · rintro ⟨c, hc, hl, rfl⟩
      exact ⟨c.version, ⟨⟨c, hc, rfl⟩, hl⟩, rfl⟩
  unfold targets DriveSyncService.targets
  dsimp only
  split
  · rename_i he
    have hnil : sh.versions.filter FileVersion.live = [] := List.isEmpty_iff.mp he
    have hnone : ∀ c ∈ sh, c.live = false := by
      intro c hc
      have hn := List.filter_eq_nil_iff.mp hnil c.version (List.mem_map_of_mem hc)
      exact Bool.eq_false_iff.mpr hn
    rw [Option.mem_toList]
    constructor
    · exact fun hd => .inr ⟨hnone, hd⟩
    · rintro (⟨c, hc, hl, -⟩ | ⟨-, hd⟩)
      · rw [hnone c hc] at hl
        cases hl
      · exact hd
  · rename_i he
    rw [hmem]
    constructor
    · exact fun h => .inl h
    · rintro (h | ⟨hnone, -⟩)
      · exact h
      · refine absurd (List.isEmpty_iff.mpr (List.filter_eq_nil_iff.mpr fun v hv => ?_)) he
        obtain ⟨c, hc, rfl⟩ := List.mem_map.mp hv
        exact Bool.eq_false_iff.mp (hnone c hc)

theorem retier_sound (h : ∀ c ∈ sh, c.Sound) : ∀ c ∈ sh.retier row tier, c.Sound := by
  intro c hc
  obtain ⟨c', hc', rfl⟩ := List.mem_map.mp hc
  obtain ⟨hd, hp⟩ := Copy.retiered_dates tier c'.row
  split
  · exact (h c' hc').same rfl hd hp
  · exact h c' hc'

/-- What comes back is the copy removed last, or the newest, which is never a superseded one. -/
theorem bringBack_sound (h : ∀ c ∈ sh, c.Sound)
    (hnew : ∀ c ∈ sh, row.documentId = some c.id → c.version.state ≠ .superseded) :
    ∀ c ∈ sh.bringBack row, c.Sound := by
  intro c hc
  unfold bringBack at hc
  split at hc
  · obtain ⟨c', hc', rfl⟩ := List.mem_map.mp hc
    have hs := h c' hc'
    split
    · exact ⟨by rw [Document.shown_purgedAt]; exact hs.unpurged, nofun,
        fun _ => Copy.shown_deletedAt hs.unpurged⟩
    · exact hs
  · rename_i hnone
    have hnil := List.getLast?_eq_none_iff.mp hnone
    obtain ⟨c', hc', rfl⟩ := List.mem_map.mp hc
    have hs := h c' hc'
    split
    · rename_i hid
      have hrem : c'.version.state ≠ .removed := by
        have hn := List.filter_eq_nil_iff.mp hnil c' hc'
        simpa using hn
      refine ⟨by rw [Document.shown_purgedAt]; exact hs.unpurged, fun hst => ?_,
        fun _ => Copy.shown_deletedAt hs.unpurged⟩
      rcases hst with hst | hst
      · exact absurd hst (hnew c' hc' hid)
      · exact absurd hst hrem
    · exact hs

theorem revisit_sound (h : ∀ c ∈ sh, c.Sound)
    (hnew : ∀ c ∈ sh, row.documentId = some c.id → c.version.state ≠ .superseded) :
    ∀ c ∈ sh.revisit row tier, c.Sound := by
  have hback : ∀ c ∈ (if row.state = .removed then sh.bringBack row else sh), c.Sound := by
    split
    · exact bringBack_sound h hnew
    · exact h
  unfold revisit
  dsimp only
  split
  · exact retier_sound hback
  · exact hback

/-- Nothing becomes of a version but that it is pending again. -/
theorem revisit_copy {c : Copy} (hc : c ∈ sh.revisit row tier) :
    ∃ c' ∈ sh, c.id = c'.id ∧ (c.version.state = .pending ∨ c.version = c'.version) := by
  rw [revisit_eq] at hc
  obtain ⟨c', hc', rfl⟩ := List.mem_map.mp hc
  refine ⟨c', hc', ?_⟩
  dsimp only [Copy.id]
  split
  · cases lastRemoved sh.versions with
    | none => exact ⟨rfl, .inr rfl⟩
    | some v =>
      dsimp only
      unfold FileVersion.marked
      split
      · exact ⟨rfl, .inl rfl⟩
      · exact ⟨rfl, .inr rfl⟩
  · exact ⟨rfl, .inr rfl⟩

theorem retire_live {c : Copy} (hc : c ∈ sh.retire now row) : c.live = false := by
  obtain ⟨c', hc', rfl⟩ := List.mem_map.mp hc
  show FileVersion.live (c'.version.retired .removed) = false
  rw [FileVersion.retired]
  split
  · rfl
  · rename_i hl
    exact Bool.eq_false_iff.mpr hl

theorem retire_sound (h : ∀ c ∈ sh, c.Sound) : ∀ c ∈ sh.retire now row, c.Sound := by
  intro c hc
  have hlive := retire_live hc
  obtain ⟨c', hc', rfl⟩ := List.mem_map.mp hc
  have hs := h c' hc'
  have hhide : ∀ d : Document, d.deletedAt ≠ none → (d.hidden now).deletedAt ≠ none := by
    intro d hd
    have hsame : d.hidden now = d := if_neg fun h => hd h.1
    rw [hsame]
    exact hd
  refine ⟨?_, fun hst => ?_, fun hl => by rw [hlive] at hl; cases hl⟩
  · dsimp only
    split
    · rw [Document.hidden_purgedAt]
      exact hs.unpurged
    · exact hs.unpurged
  · dsimp only at hst ⊢
    by_cases hl : c'.live = true
    · rw [if_pos (mem_targets.mpr (.inl ⟨c', hc', hl, rfl⟩))]
      exact Document.hidden_deletedAt _ now hs.unpurged
    · have hv : c'.version.retired .removed = c'.version := if_neg hl
      rw [hv] at hst
      split
      · exact hhide _ (hs.hidden hst)
      · exact hs.hidden hst

/-- Settled, or promoted over all that are older. -/
theorem reconcile_cases (now : Nat) (sh : Shelf) :
    (sh.reconcile now = sh.map Copy.settled ∧
      ∀ c, sh.getLast? = some c → c.settled.version.state = .pending → c.row.status ≠ .live) ∨
    ∃ older newest, sh = older ++ [newest] ∧ newest.version.state = .pending ∧
      newest.row.status = .live ∧
      sh.reconcile now =
        (older.map fun c => c.settled.outdated now) ++ [newest.inState .current] := by
  unfold reconcile
  dsimp only
  rw [List.getLast?_map]
  cases hl : sh.getLast? with
  | none => exact .inl ⟨rfl, fun c hc => by cases hc⟩
  | some newest =>
    dsimp only [Option.map_some]
    split
    · rename_i hkeep
      refine .inl ⟨rfl, fun c hc hp => ?_⟩
      obtain rfl := Option.some.inj hc
      rw [Copy.settled_row] at hkeep
      exact hkeep.resolve_left (not_not.mpr hp)
    · rename_i hkeep
      obtain ⟨hp, hs⟩ := not_or.mp hkeep
      rw [Copy.settled_row] at hs
      have hsplit : sh = sh.dropLast ++ [newest] := (List.dropLast_append_getLast? newest hl).symm
      have hsame : newest.settled = newest := by
        rcases newest.settled_cases with he | ⟨-, ⟨-, he⟩ | ⟨-, he⟩⟩
        · exact he
        · rw [he] at hp
          cases not_not.mp hp
        · rw [he] at hp
          cases not_not.mp hp
      refine .inr ⟨sh.dropLast, newest, hsplit, ?_, not_not.mp hs, ?_⟩
      · rw [hsame] at hp
        exact not_not.mp hp
      · rw [hsame, ← List.map_dropLast, List.map_map]
        rfl

theorem reconcile_sound (h : ∀ c ∈ sh, c.Sound) : ∀ c ∈ sh.reconcile now, c.Sound := by
  intro c hc
  rcases reconcile_cases now sh with ⟨he, -⟩ | ⟨older, newest, hsh, hp, hl, he⟩
  · rw [he] at hc
    obtain ⟨c', hc', rfl⟩ := List.mem_map.mp hc
    exact (h c' hc').settled
  · rw [he] at hc
    rcases List.mem_append.mp hc with hc | hc
    · obtain ⟨c', hc', rfl⟩ := List.mem_map.mp hc
      exact (h c' (hsh ▸ List.mem_append_left _ hc')).settled.outdated now
    · obtain rfl := List.mem_singleton.mp hc
      have hs := h newest (by rw [hsh]; simp)
      have hopen : newest.live = true := newest.live_iff.mpr (.inr hp)
      exact ⟨hs.unpurged, nofun, fun _ => hs.shown hopen⟩

end Shelf

/-- What every item of the second list comes from. -/
theorem before_of_mem {α β : Type} {R : α → β → Prop} {xs : List α} {ys : List β}
    (h : List.Forall₂ R xs ys) {y : β} (hy : y ∈ ys) : ∃ x ∈ xs, R x y := by
  induction h with
  | nil => cases hy
  | @cons x y' xs ys hr _ ih =>
    rcases List.mem_cons.mp hy with rfl | hy
    · exact ⟨x, by simp, hr⟩
    · obtain ⟨x', hx', hr'⟩ := ih hy
      exact ⟨x', by simp [hx'], hr'⟩

structure Orderly (row : Option DriveFileRow) (sh : Shelf) : Prop where
  sound : ∀ c ∈ sh, c.Sound
  newest : ∀ r, row = some r → ∀ c ∈ sh, r.documentId = some c.id →
    c.version.state ≠ .superseded
  gone : ∀ r, row = some r → r.state = .removed → ∀ c ∈ sh, c.live = false

namespace SyncState

variable {sv : Services} {cfg : DriveConfig} {s t : SyncState} {a : SyncAction} {f : FileId}

theorem shelf_nodup (hs : Tracked s.store) (f : FileId) :
    ((s.store.shelf f).map Copy.id).Nodup := by
  rw [DriveState.shelf_ids hs f]
  exact hs.nodup f

theorem newest_id (hs : Tracked s.store) {row : DriveFileRow} (hrow : s.store.file f = some row) :
    row.documentId = (s.store.shelf f).getLast?.map Copy.id := by
  have hl := hs.latest f
  rw [hrow, ← DriveState.shelf_ids hs f, List.getLast?_map] at hl
  exact hl

theorem known_row {o : Option DriveFileRow} {row : DriveFileRow} (h : known o = some row) :
    o = some row ∧ row.documentId ≠ none ∧ (row.state = .imported ∨ row.state = .removed) := by
  obtain ⟨ho, hc⟩ := Option.filter_eq_some_iff.mp h
  simp only [Bool.and_eq_true, Bool.or_eq_true, decide_eq_true_eq] at hc
  exact ⟨ho, Option.isSome_iff_ne_none.mp hc.1, hc.2⟩

/-- The copies change one by one and keep their versions. -/
theorem orderly_relate {row : Option DriveFileRow} {sh sh' : Shelf} {R : Copy → Copy → Prop}
    (h : Orderly row sh) (hrel : List.Forall₂ R sh sh')
    (hR : ∀ c c', c ∈ sh → R c c' → c'.version = c.version ∧ c'.row.deletedAt = c.row.deletedAt ∧
      c'.row.purgedAt = c.row.purgedAt) : Orderly row sh' := by
  have hback : ∀ c' ∈ sh', ∃ c ∈ sh, c'.version = c.version ∧
      c'.row.deletedAt = c.row.deletedAt ∧ c'.row.purgedAt = c.row.purgedAt := by
    intro c' hc'
    obtain ⟨c, hc, hr⟩ := before_of_mem hrel hc'
    exact ⟨c, hc, hR c c' hc hr⟩
  refine ⟨fun c' hc' => ?_, fun r hr c' hc' hid => ?_, fun r hr hrem c' hc' => ?_⟩
  · obtain ⟨c, hc, hv, hd, hp⟩ := hback c' hc'
    exact (h.sound c hc).same (by rw [hv]) hd hp
  · obtain ⟨c, hc, hv, -⟩ := hback c' hc'
    have hid' : c'.id = c.id := by rw [Copy.id, hv, Copy.id]
    rw [hv]
    exact h.newest r hr c hc (hid' ▸ hid)
  · obtain ⟨c, hc, hv, -⟩ := hback c' hc'
    rw [Copy.live, hv]
    exact h.gone r hr hrem c hc

theorem newCopy_sound (cfg : DriveConfig) (id : DocumentId) (item : DriveFile)
    (tier : Classification) (data : Bytes) (mimeType : String) :
    (newCopy cfg id item tier data mimeType).Sound := ⟨rfl, nofun, fun _ => rfl⟩

/-- What the states say stays true. -/
theorem orderly_of_step (hs : Tracked s.store)
    (h : Orderly (s.store.file f) (s.store.shelf f)) (ha : a.HandsOff)
    (hstep : FileStep sv cfg f s a t) : Orderly (t.store.file f) (t.store.shelf f) := by
  have hnodup := shelf_nodup hs f
  cases hstep with
  | aside a t hfile hshelf =>
    rw [hfile, hshelf]
    exact h
  | revisits id fetched luck item tier folderId row t hf hnext hk hc hfile hshelf =>
    rw [hfile, hshelf]
    subst hf
    obtain ⟨hrow, -, -⟩ := known_row hk
    have hnew := h.newest row hrow
    refine ⟨Shelf.revisit_sound h.sound hnew, fun r hr c hc' hid => ?_, fun r hr hrem => ?_⟩
    · obtain rfl := Option.some.inj hr
      rw [recorded_documentId, hrow, Option.bind_some] at hid
      obtain ⟨c', hc'', hid', hst | hv⟩ := Shelf.revisit_copy hc'
      · rw [hst]
        exact fun h => by cases h
      · rw [hv]
        exact hnew c' hc'' (hid' ▸ hid)
    · obtain rfl := Option.some.inj hr
      cases hrem
  | passesOver id fetched luck item tier folderId state reason t hf hnext hn hstate hfile hshelf =>
    rw [hfile, hshelf]
    subst hf
    refine ⟨h.sound, fun r hr c hc hid => ?_, fun r hr hrem => ?_⟩
    · obtain rfl := Option.some.inj hr
      rw [recorded_documentId] at hid
      obtain ⟨row, hrow, hd⟩ := Option.bind_eq_some_iff.mp hid
      exact h.newest row hrow c hc hd
    · obtain rfl := Option.some.inj hr
      have hrem' : state = .removed := hrem
      rcases hstate with rfl | rfl <;> cases hrem'
  | imports id fetched luck item tier folderId data mimeType t hf hnext hfresh hn hd hm hfile
      hshelf =>
    rw [hfile, hshelf]
    refine ⟨fun c hc => ?_, fun r hr c hc hid => ?_, fun r hr hrem => ?_⟩
    · rcases List.mem_append.mp hc with hc | hc
      · exact h.sound c hc
      · obtain rfl := List.mem_singleton.mp hc
        exact newCopy_sound _ _ _ _ _ _
    · obtain rfl := Option.some.inj hr
      have hid' : id = c.id := by simpa [recorded] using hid
      rcases List.mem_append.mp hc with hc | hc
      · obtain ⟨hv, -⟩ := DriveState.mem_shelf.mp hc
        exact absurd (hid' ▸ List.mem_map_of_mem hv) (hs.fresh_ids hfresh f)
      · obtain rfl := List.mem_singleton.mp hc
        exact fun h => by cases h
    · obtain rfl := Option.some.inj hr
      cases hrem
  | retires listing limited files row t hp hrow hfile hshelf =>
    rw [hfile, hshelf]
    refine ⟨Shelf.retire_sound h.sound, fun r hr c hc hid => ?_, fun r hr hrem c hc =>
      Shelf.retire_live hc⟩
    obtain rfl := Option.some.inj hr
    obtain ⟨c', hc', rfl⟩ := List.mem_map.mp hc
    have hid' : row.documentId = some c'.id := by
      have he : (c'.version.retired .removed).documentId = c'.version.documentId :=
        FileVersion.retired_documentId _ _
      have hid'' : row.documentId = some (c'.version.retired .removed).documentId := hid
      rw [he] at hid''
      exact hid''
    have hst := h.newest row hrow c' hc' hid'
    show (c'.version.retired .removed).state ≠ .superseded
    unfold FileVersion.retired
    split
    · exact fun h => by cases h
    · exact hst
  | reconciles listing limited files t hp hfile hshelf =>
    rw [hfile, hshelf]
    have hstate : ∀ c : Copy, c.version.state ≠ .superseded →
        c.settled.version.state ≠ .superseded := by
      intro c hc
      rcases c.settled_cases with he | ⟨-, ⟨-, he⟩ | ⟨-, he⟩⟩
      · rwa [he]
      · rw [he]
        exact fun h => by cases h
      · rw [he]
        exact fun h => by cases h
    refine ⟨Shelf.reconcile_sound h.sound, fun r hr c hc hid => ?_, fun r hr hrem c hc => ?_⟩
    · rcases Shelf.reconcile_cases s.store.world.now (s.store.shelf f) with
        ⟨he, -⟩ | ⟨older, newest, hsh, hpend, hlive, he⟩
      · rw [he] at hc
        obtain ⟨c', hc', rfl⟩ := List.mem_map.mp hc
        rw [Copy.settled_id] at hid
        exact hstate c' (h.newest r hr c' hc' hid)
      · rw [he] at hc
        rcases List.mem_append.mp hc with hc | hc
        · obtain ⟨c', hc', rfl⟩ := List.mem_map.mp hc
          rw [Copy.outdated_id, Copy.settled_id] at hid
          have hlast := newest_id hs hr
          rw [hsh, List.getLast?_append_of_ne_nil _ (by simp), List.getLast?_singleton] at hlast
          have heq : c'.id = newest.id := Option.some.inj (hid.symm.trans hlast)
          rw [hsh, List.map_append, List.nodup_append] at hnodup
          exact absurd heq (hnodup.2.2 c'.id (List.mem_map_of_mem hc') newest.id (by simp))
        · obtain rfl := List.mem_singleton.mp hc
          exact fun h => by cases h
    · have hgone := h.gone r hr hrem
      have hnot : ∀ c ∈ s.store.shelf f, c.version.state ≠ .pending := fun c hc =>
        ((c.live_eq_false).mp (hgone c hc)).2
      rcases Shelf.reconcile_cases s.store.world.now (s.store.shelf f) with
        ⟨he, -⟩ | ⟨older, newest, hsh, hpend, hlive, he⟩
      · rw [he] at hc
        obtain ⟨c', hc', rfl⟩ := List.mem_map.mp hc
        rcases c'.settled_cases with hsame | ⟨hpend, -⟩
        · rw [hsame]
          exact hgone c' hc'
        · exact absurd hpend (hnot c' hc')
      · exact absurd hpend (hnot newest (by rw [hsh]; simp))
  | works stage id luck operations t hfile hshelf hidle =>
    rw [hfile]
    exact orderly_relate h hshelf fun c c' _ hr => ⟨hr.1, hr.2.deletedAt, hr.2.purgedAt⟩
  | classifies id tier t hfile hshelf =>
    rw [hfile, hshelf]
    refine orderly_relate h (R := fun c c' =>
      c' = Copy.rewritten id (fun r => { r with classification := some tier }) c) ?_ ?_
    · exact List.forall₂_map_right_iff.mpr (List.forall₂_same.mpr fun _ _ => rfl)
    · rintro c c' - rfl
      unfold Copy.rewritten
      split <;> exact ⟨rfl, rfl, rfl⟩
  | restores id t hfile hshelf => exact ha.elim
  | erases id t hfile hshelf => exact ha.elim

theorem Fresh.orderly (h : s.Fresh) (f : FileId) :
    Orderly (s.store.file f) (s.store.shelf f) := by
  rw [h.shelf f]
  exact ⟨by simp, by simp, by simp⟩

end SyncState

end KnowledgeBase
