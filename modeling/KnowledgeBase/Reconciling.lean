import KnowledgeBase.ImportTracking
import KnowledgeBase.ShelfOrder

/-! What a reconciliation leaves of a file's versions: which of them are seen, and in favour
of what a version is retired. -/

namespace KnowledgeBase

open Program DriveSyncService

namespace DriveState

/-- In search. -/
def Visible (s : DriveState) (d : DocumentId) : Prop :=
  ∃ r ∈ s.doc d, r.status = .live ∧ r.deletedAt = none

instance (s : DriveState) (d : DocumentId) : Decidable (s.Visible d) :=
  inferInstanceAs (Decidable (∃ r ∈ s.doc d, r.status = .live ∧ r.deletedAt = none))

end DriveState

/-- A version that is seen, and retired, is retired in favour of one that can be seen. -/
def RetiresForVisible (s t : DriveState) (f : FileId) : Prop :=
  ∀ v ∈ s.versions f, v.state ≠ .superseded → s.Visible v.documentId →
    { documentId := v.documentId, state := .superseded } ∈ t.versions f →
    ∃ newest ∈ (t.versions f).getLast?, ∃ r ∈ t.doc newest.documentId,
      r.status = .live ∧ r.deletedAt = none ∧ r.purgedAt = none

instance (s t : DriveState) (f : FileId) : Decidable (RetiresForVisible s t f) := by
  unfold RetiresForVisible
  infer_instance

/-- The newest version waits to be promoted with a document that is deleted. -/
def HiddenNewest (s : DriveState) (f : FileId) : Prop :=
  ∃ newest ∈ (s.versions f).getLast?, newest.state = .pending ∧
    ∃ r ∈ s.doc newest.documentId, r.status = .live ∧ r.deletedAt ≠ none

/-- No version before the newest is open and seen. -/
def NoneOlderSeen (s : DriveState) (f : FileId) : Prop :=
  ∀ v ∈ (s.versions f).dropLast, v.live = true → ¬ s.Visible v.documentId

/-- What holds of the versions whatever goes wrong. -/
structure Enduring (s : DriveState) : Prop where
  nodup : ∀ f, (s.ids f).Nodup
  known : ∀ f, ∀ d ∈ s.ids f, s.doc d ≠ none
  mortal : ∀ f, ∀ d ∈ s.ids f, ∀ r, s.doc d = some r → Mortal r

section Versions

variable {sv : Services} {s t : DriveState} {f : FileId} {v : FileVersion} {d : DocumentId}

theorem settled_of_visible (h : s.Visible v.documentId) : settled s.world v = v := by
  obtain ⟨r, hr, hl, -⟩ := h
  have hr' : s.world.doc v.documentId = some r := hr
  unfold settled
  rw [hr', Option.map_some, hl]
  simp [failedStatuses]

/-- A version is settled or left as it is. -/
theorem settled_state (w : World) (v : FileVersion) :
    settled w v = v ∨ (settled w v).state = .duplicate ∨ (settled w v).state = .failed := by
  unfold settled
  split
  · exact .inl rfl
  · split
    · exact .inl rfl
    · split
      · exact .inr (.inl rfl)
      · split
        · exact .inr (.inr rfl)
        · exact .inl rfl

theorem settled_of_state {state : VersionState} (h : (settled s.world v).state = state)
    (hd : state ≠ .duplicate) (hf : state ≠ .failed) : settled s.world v = v := by
  rcases settled_state s.world v with he | he | he
  · exact he
  · exact absurd (h.symm.trans he) hd
  · exact absurd (h.symm.trans he) hf

theorem settled_of_superseded (h : (settled s.world v).state = .superseded) :
    v.state = .superseded := by
  rw [← settled_of_state h (by simp) (by simp)]
  exact h

theorem eq_of_ids (hs : (s.ids f).Nodup) {u : FileVersion} (hu : u ∈ s.versions f)
    (hv : v ∈ s.versions f) (hid : u.documentId = v.documentId) : u = v :=
  List.inj_on_of_nodup_map hs hu hv hid

/-- Without a promotion nothing is retired. -/
theorem waits_retires_none (hs : (s.ids f).Nodup) (hv : v ∈ s.versions f)
    (hstate : v.state ≠ .superseded) :
    { documentId := v.documentId, state := .superseded } ∉
      (s.versions f).map (settled s.world) := by
  intro hm
  obtain ⟨u, hu, he⟩ := List.mem_map.mp hm
  have hid : u.documentId = v.documentId := by
    rw [← FileVersion.settled_documentId s.world u, he]
  have hsup : (settled s.world u).state = .superseded := by rw [he]
  have huv : u = v := eq_of_ids hs hu hv hid
  exact hstate (huv ▸ settled_of_superseded hsup)

/-- The row of the newest document is not touched by a promotion. -/
theorem newest_row {older : List FileVersion} {newest : FileVersion} {w : World}
    (hnot : newest.documentId ∉ outdated older)
    (hdocs : ∀ d, (w.doc d).map Document.unversioned =
      (s.doc d).map fun r => (supersededRow s.world (outdated older) d r).unversioned)
    {r : Document} (hr : s.doc newest.documentId = some r) :
    ∃ r', w.doc newest.documentId = some r' ∧ r'.status = r.status ∧
      r'.deletedAt = r.deletedAt ∧ r'.purgedAt = r.purgedAt := by
  have hd := hdocs newest.documentId
  rw [hr, Option.map_some] at hd
  obtain ⟨r', hr', he⟩ := Option.map_eq_some_iff.mp hd
  have hsame : supersededRow s.world (outdated older) newest.documentId r = r :=
    if_neg fun h => hnot h.1
  rw [hsame] at he
  have hstatus : r'.unversioned.status = r.unversioned.status := by rw [he]
  have hdeleted : r'.unversioned.deletedAt = r.unversioned.deletedAt := by rw [he]
  have hpurged : r'.unversioned.purgedAt = r.unversioned.purgedAt := by rw [he]
  exact ⟨r', hr', hstatus, hdeleted, hpurged⟩

theorem mem_outdated {older : List FileVersion} :
    d ∈ outdated older ↔ ∃ v ∈ older, v.live = true ∧ v.documentId = d := by
  simp [outdated, and_assoc]

/-- Exactly when what is retired is retired for something to be seen. -/
theorem retiresForVisible_iff (hs : Enduring s) :
    RetiresForVisible s (reconcileFile sv s f) f ↔ (HiddenNewest s f → NoneOlderSeen s f) := by
  have hspec := reconcileFile_spec sv s f
  generalize reconcileFile sv s f = t at hspec ⊢
  cases hspec with
  | waits hn =>
    have hnot : ¬ HiddenNewest s f := by
      rintro ⟨newest, hlast, hp, r, hr, hl, -⟩
      have hsame : settled s.world newest = newest := by
        have hr' : s.world.doc newest.documentId = some r := hr
        unfold settled
        rw [hr', Option.map_some, hl]
        simp [failedStatuses]
      have hlast' : ((s.versions f).map (settled s.world)).getLast? = some newest := by
        rw [List.getLast?_map, hlast, Option.map_some, hsame]
      exact hn newest hlast' hp (by rw [hr, Option.map_some, hl])
    refine ⟨fun _ h => absurd h hnot, fun _ v hv hstate hvis hm => ?_⟩
    rw [DriveState.putVersions_versions] at hm
    exact absurd hm (waits_retires_none (hs.nodup f) hv hstate)
  | promotes older newest w hv hp hl hobjects hdocs =>
    obtain ⟨r, hr, hstatus⟩ := Option.map_eq_some_iff.mp hl
    have hlast : ((s.versions f).getLast?).map (settled s.world) = some newest := by
      rw [← List.getLast?_map, hv, List.getLast?_append_of_ne_nil _ (by simp),
        List.getLast?_singleton]
    obtain ⟨n, hn, hsettled⟩ := Option.map_eq_some_iff.mp hlast
    have hpending : (settled s.world n).state = .pending := by rw [hsettled, hp]
    have hsame : settled s.world n = n := settled_of_state hpending (by simp) (by simp)
    have hnn : n = newest := hsame.symm.trans hsettled
    subst hnn
    have hsplit : s.versions f = (s.versions f).dropLast ++ [n] :=
      (List.dropLast_append_getLast? n hn).symm
    have holder : (s.versions f).dropLast.map (settled s.world) = older := by
      have hboth := hv
      rw [hsplit, List.map_append] at hboth
      exact List.append_inj_left' hboth rfl
    have hnodup : ((older ++ [n]).map FileVersion.documentId).Nodup := by
      rw [← hv, FileVersion.ids_map (fun v => by simp)]
      exact hs.nodup f
    have hnot : n.documentId ∉ outdated older := by
      intro hm
      obtain ⟨v, hvm, -, hid⟩ := mem_outdated.mp hm
      rw [List.map_append, List.nodup_append] at hnodup
      exact hnodup.2.2 v.documentId (List.mem_map_of_mem hvm) n.documentId (by simp) hid
    obtain ⟨r', hr', hstatus', hdeleted, hpurged⟩ := newest_row hnot hdocs hr
    have hmem : n.documentId ∈ s.ids f := List.mem_map_of_mem (List.mem_of_getLast? hn)
    have hmortal : r.deletedAt = none → r.purgedAt = none := by
      intro hd
      by_contra hpu
      exact hs.mortal f n.documentId hmem r hr hpu hd
    constructor
    · rintro h ⟨newest', hn', hp', r₁, hr₁, hl₁, hd₁⟩ v hvm hlive hvis
      rw [Option.mem_def, hn] at hn'
      obtain rfl := Option.some.inj hn'
      rw [Option.mem_def, hr] at hr₁
      obtain rfl := Option.some.inj hr₁
      have hvs : v ∈ s.versions f := List.dropLast_subset _ hvm
      have hvo : v ∈ older := by
        rw [← holder]
        exact List.mem_map.mpr ⟨v, hvm, settled_of_visible hvis⟩
      have hretired : v.retired .superseded = { documentId := v.documentId, state := .superseded } :=
        if_pos hlive
      have hstate : v.state ≠ .superseded := by
        intro he
        simp [FileVersion.live, he] at hlive
      obtain ⟨last, hlast₂, r₂, hr₂, -, hd₂, -⟩ := h v hvs hstate hvis (by
        rw [DriveState.putVersions_versions, ← hretired]
        exact List.mem_append_left _ (List.mem_map_of_mem hvo))
      rw [Option.mem_def, DriveState.putVersions_versions,
        List.getLast?_append_of_ne_nil _ (by simp), List.getLast?_singleton] at hlast₂
      obtain rfl := Option.some.inj hlast₂
      have hr₃ : w.doc n.documentId = some r₂ := hr₂
      rw [hr'] at hr₃
      obtain rfl := Option.some.inj hr₃
      exact hd₁ (hdeleted.symm.trans hd₂)
    · intro h v hvs hstate hvis hm
      have hd : r.deletedAt = none := by
        by_contra hd
        have hnone := h ⟨n, hn, hp, r, hr, hstatus, hd⟩
        rw [DriveState.putVersions_versions] at hm
        rcases List.mem_append.mp hm with hm | hm
        · obtain ⟨u, hu, he⟩ := List.mem_map.mp hm
          obtain ⟨v', hv', hu'⟩ := List.mem_map.mp (holder ▸ hu)
          have hid : v'.documentId = v.documentId := by
            have hids := congrArg FileVersion.documentId he
            rw [FileVersion.retired_documentId, ← hu', FileVersion.settled_documentId] at hids
            exact hids
          have heq : v' = v :=
            eq_of_ids (hs.nodup f) (List.dropLast_subset _ hv') hvs hid
          subst heq
          rw [settled_of_visible hvis] at hu'
          subst hu'
          have hlive : v'.live = true := by
            by_contra hl'
            have hkeep : v'.retired .superseded = v' := if_neg hl'
            rw [hkeep] at he
            exact hstate (by rw [he])
          exact hnone v' hv' hlive hvis
        · obtain hm' := List.mem_singleton.mp hm
          have := congrArg FileVersion.state hm'
          cases this
      refine ⟨{ n with state := .current }, ?_, r', hr', hstatus'.trans hstatus,
        hdeleted.trans hd, hpurged.trans (hmortal hd)⟩
      rw [Option.mem_def, DriveState.putVersions_versions, List.getLast?_append_of_ne_nil _ (by simp),
        List.getLast?_singleton]

end Versions

namespace Shelf

variable {sh sh' : Shelf} {row : DriveFileRow} {now : Nat} {tier : Classification}

/-- What the states say of the statuses. -/
structure Told (sh : Shelf) : Prop where
  current : ∀ c ∈ sh, c.version.state = .current → c.row.status = .live
  waiting : ∀ c ∈ sh, c.version.state = .pending ∨ c.version.state = .removed →
    c.row.status ≠ .superseded
  one : ∀ c ∈ sh, ∀ c' ∈ sh, c.version.state = .current → c'.version.state = .current →
    c.id = c'.id

/-- A copy comes from one that says as much. -/
structure Descends (c c' : Copy) : Prop where
  id : c'.id = c.id
  current : c'.version.state = .current →
    c.version.state = .current ∧ (c.row.status = .live → c'.row.status = .live)
  waiting : c'.version.state = .pending ∨ c'.version.state = .removed →
    (c.version.state = .pending ∨ c.version.state = .removed ∨ c.version.state = .current) ∧
      (c'.row.status = .superseded → c.row.status = .superseded)

theorem Descends.same {c c' : Copy} (hv : c'.version = c.version)
    (hs : c'.row.status = c.row.status) : Descends c c' where
  id := by rw [Copy.id, hv, Copy.id]
  current h := ⟨hv ▸ h, fun hl => hs.trans hl⟩
  waiting h := by
    rw [hv] at h
    exact ⟨h.elim .inl fun h => .inr (.inl h), fun hl => hs ▸ hl⟩

theorem Told.descends (h : sh.Told) (hd : ∀ c' ∈ sh', ∃ c ∈ sh, Descends c c') : sh'.Told where
  current c' hc' hcur := by
    obtain ⟨c, hc, hcc⟩ := hd c' hc'
    obtain ⟨hc₁, hc₂⟩ := hcc.current hcur
    exact hc₂ (h.current c hc hc₁)
  waiting c' hc' hw hsup := by
    obtain ⟨c, hc, hcc⟩ := hd c' hc'
    obtain ⟨hstate, hst⟩ := hcc.waiting hw
    have hsup' := hst hsup
    rcases hstate with hp | hr | hcur
    · exact h.waiting c hc (.inl hp) hsup'
    · exact h.waiting c hc (.inr hr) hsup'
    · have hl := h.current c hc hcur
      rw [hl] at hsup'
      cases hsup'
  one c₁ hc₁ c₂ hc₂ h₁ h₂ := by
    obtain ⟨d₁, hd₁, hcc₁⟩ := hd c₁ hc₁
    obtain ⟨d₂, hd₂, hcc₂⟩ := hd c₂ hc₂
    rw [hcc₁.id, hcc₂.id]
    exact h.one d₁ hd₁ d₂ hd₂ (hcc₁.current h₁).1 (hcc₂.current h₂).1

theorem revisited_status (vs : List FileVersion) (row : DriveFileRow) (tier : Classification)
    (d : DocumentId) (r : Document) : (revisited vs row tier d r).status = r.status := by
  have hretiered : ∀ q : Document, (retiered tier q).status = q.status := by
    intro q
    unfold retiered
    split <;> rfl
  have hshown : (if comesBack vs row = some d then r.shown else r).status = r.status := by
    split
    · unfold Document.shown
      split <;> rfl
    · rfl
  unfold revisited
  dsimp only
  split
  · rw [hretiered, hshown]
  · exact hshown

/-- Only the copy removed last becomes pending again. -/
theorem revisit_descends (hn : (sh.map Copy.id).Nodup) :
    ∀ c' ∈ sh.revisit row tier, ∃ c ∈ sh, Descends c c' := by
  intro c' hc'
  rw [revisit_eq] at hc'
  obtain ⟨c, hc, rfl⟩ := List.mem_map.mp hc'
  refine ⟨c, hc, ?_⟩
  have hstatus := revisited_status sh.versions row tier c.id c.row
  split
  · cases hl : lastRemoved sh.versions with
    | none => exact .same rfl hstatus
    | some v =>
      by_cases hid : c.version.documentId = v.documentId
      · have hmark : c.version.marked v.documentId .pending = { c.version with state := .pending } :=
          if_pos hid
        obtain ⟨hv, hrem⟩ := List.mem_filter.mp (List.mem_of_getLast? hl)
        obtain ⟨last, hlast, rfl⟩ := List.mem_map.mp hv
        have hsame : c = last := List.inj_on_of_nodup_map hn hc hlast hid
        have hstate : c.version.state = .removed := by
          rw [hsame]
          exact of_decide_eq_true hrem
        dsimp only
        rw [hmark]
        exact ⟨rfl, nofun, fun _ => ⟨.inr (.inl hstate), fun hsup => hstatus ▸ hsup⟩⟩
      · have hmark : c.version.marked v.documentId .pending = c.version := if_neg hid
        dsimp only
        rw [hmark]
        exact .same rfl hstatus
  · exact .same rfl hstatus

theorem retire_descends : ∀ c' ∈ sh.retire now row, ∃ c ∈ sh, Descends c c' := by
  intro c' hc'
  have hlive := retire_live hc'
  obtain ⟨hcur, hpen⟩ := (Copy.live_eq_false _).mp hlive
  obtain ⟨c, hc, rfl⟩ := List.mem_map.mp hc'
  have hstatus : (if c.id ∈ sh.targets row then c.row.hidden now else c.row).status =
      c.row.status := by
    split
    · unfold Document.hidden
      split <;> rfl
    · rfl
  refine ⟨c, hc, FileVersion.retired_documentId _ _, fun h => absurd h hcur, fun h => ?_⟩
  refine ⟨?_, fun hsup => hstatus ▸ hsup⟩
  have hrem := h.resolve_left hpen
  by_cases hl : c.version.live = true
  · rcases c.live_iff.mp hl with hl' | hl'
    · exact .inr (.inr hl')
    · exact .inl hl'
  · have hkeep : c.version.retired .removed = c.version := if_neg hl
    have hrem' : (c.version.retired .removed).state = .removed := hrem
    rw [hkeep] at hrem'
    exact .inr (.inl hrem')

theorem settled_descends (c : Copy) : Descends c c.settled := by
  rcases c.settled_cases with he | ⟨-, ⟨-, he⟩ | ⟨-, he⟩⟩
  · rw [he]
    exact .same rfl rfl
  · rw [he]
    exact ⟨rfl, nofun, nofun⟩
  · rw [he]
    exact ⟨rfl, nofun, nofun⟩

theorem reconcile_told (h : sh.Told) : (sh.reconcile now).Told := by
  rcases reconcile_cases now sh with ⟨he, -⟩ | ⟨older, newest, hsh, hp, hl, he⟩
  · rw [he]
    refine h.descends fun c' hc' => ?_
    obtain ⟨c, hc, rfl⟩ := List.mem_map.mp hc'
    exact ⟨c, hc, settled_descends c⟩
  · -- of what is open before only the newest is after
    have holder : ∀ c' ∈ older.map fun c => c.settled.outdated now,
        c'.version.state ≠ .current ∧
          (c'.version.state = .pending ∨ c'.version.state = .removed →
            c'.row.status ≠ .superseded) := by
      intro c' hc'
      obtain ⟨c, hc, rfl⟩ := List.mem_map.mp hc'
      have hm : c ∈ sh := hsh ▸ List.mem_append_left _ hc
      obtain ⟨hcur, hpen⟩ := (Copy.live_eq_false _).mp (Copy.outdated_state now c.settled)
      refine ⟨hcur, fun hw => ?_⟩
      have hrem := hw.resolve_left hpen
      by_cases hlive : c.settled.live = true
      · rw [Copy.outdated, if_pos hlive] at hrem
        cases hrem
      · have hkeep : c.settled.outdated now = c.settled := if_neg hlive
        rw [hkeep] at hrem ⊢
        have hc' : c.settled = c := by
          rcases c.settled_cases with hs | ⟨-, ⟨-, hs⟩ | ⟨-, hs⟩⟩
          · exact hs
          · rw [hs] at hrem
            cases hrem
          · rw [hs] at hrem
            cases hrem
        rw [hc'] at hrem ⊢
        exact h.waiting c hm (.inr hrem)
    rw [he]
    refine ⟨fun c hc hcur => ?_, fun c hc hw => ?_, fun c hc c' hc' hcur hcur' => ?_⟩
    · rcases List.mem_append.mp hc with hc | hc
      · exact absurd hcur (holder c hc).1
      · obtain rfl := List.mem_singleton.mp hc
        exact hl
    · rcases List.mem_append.mp hc with hc | hc
      · exact (holder c hc).2 hw
      · obtain rfl := List.mem_singleton.mp hc
        rcases hw with hw | hw <;> cases hw
    · rcases List.mem_append.mp hc with hc | hc
      · exact absurd hcur (holder c hc).1
      · rcases List.mem_append.mp hc' with hc' | hc'
        · exact absurd hcur' (holder c' hc').1
        · rw [List.mem_singleton.mp hc, List.mem_singleton.mp hc']

def OneVisible (sh : Shelf) : Prop :=
  (∀ c ∈ sh, ∀ c' ∈ sh, c.Visible → c'.Visible → c.id = c'.id) ∧
    (∀ c ∈ sh, c.version.state ≠ .pending) ∧ ∀ c ∈ sh, c.version.state = .current ↔ c.Visible

/-- The pipeline is done with every document. -/
def Settled (sh : Shelf) : Prop :=
  ∀ c ∈ sh, c.row.status = .live ∨ c.row.status = .duplicate ∨ c.row.status = .superseded ∨
    c.row.status ∈ failedStatuses

/-- Either the newest copy waits to be promoted, or no copy does. -/
def Ready (sh : Shelf) : Prop :=
  (∃ newest, sh.getLast? = some newest ∧ newest.version.state = .pending ∧
      newest.row.status = .live) ∨
    ∀ c ∈ sh, c.version.state = .pending → c.row.status ≠ .live

/-- No copy that was given up is seen. -/
def NoneRevived (sh : Shelf) : Prop :=
  ∀ c ∈ sh, c.version.state = .failed ∨ c.version.state = .duplicate → ¬ c.Visible

theorem settled_of_live {c : Copy} (hl : c.row.status = .live) : c.settled = c := by
  rcases c.settled_cases with he | ⟨-, ⟨hs, -⟩ | ⟨hs, -⟩⟩
  · exact he
  · rw [hl] at hs
    cases hs
  · rw [hl] at hs
    simp [failedStatuses] at hs

theorem settled_of_not_pending {c : Copy} (hp : c.version.state ≠ .pending) : c.settled = c := by
  rcases c.settled_cases with he | ⟨hp', -⟩
  · exact he
  · exact absurd hp' hp

/-- A pending copy whose document has come to an end is pending no longer. -/
theorem settled_of_ended {c : Copy} (hp : c.version.state = .pending)
    (he : c.row.status = .duplicate ∨ c.row.status ∈ failedStatuses) :
    c.settled.version.state ≠ .pending := by
  unfold Copy.settled
  rw [if_neg (not_not.mpr hp)]
  split
  · exact nofun
  · rename_i hd
    rw [if_pos (he.resolve_left hd)]
    exact nofun

/-- A retired copy is not seen, and nothing but a current one is that is not given up. -/
theorem current_of_visible {c : Copy} (hs : c.Sound) (hv : c.Visible)
    (hp : c.version.state ≠ .pending)
    (hg : c.version.state = .failed ∨ c.version.state = .duplicate → ¬ c.Visible) :
    c.version.state = .current := by
  cases hstate : c.version.state with
  | current => rfl
  | pending => exact absurd hstate hp
  | superseded => exact absurd hv.2 (hs.hidden (.inl hstate))
  | removed => exact absurd hv.2 (hs.hidden (.inr hstate))
  | failed => exact absurd hv (hg (.inl hstate))
  | duplicate => exact absurd hv (hg (.inr hstate))

theorem waits_oneVisible (ht : sh.Told) (hs : ∀ c ∈ sh, c.Sound) (hset : sh.Settled)
    (hr : ∀ c ∈ sh, c.version.state = .pending → c.row.status ≠ .live) (hn : sh.NoneRevived) :
    OneVisible (sh.map Copy.settled) := by
  have hpending : ∀ c ∈ sh, c.settled.version.state ≠ .pending := by
    intro c hc hp
    by_cases hcp : c.version.state = .pending
    · rcases hset c hc with hl | hd | hsup | hf
      · exact hr c hc hcp hl
      · exact settled_of_ended hcp (.inl hd) hp
      · exact ht.waiting c hc (.inl hcp) hsup
      · exact settled_of_ended hcp (.inr hf) hp
    · rw [settled_of_not_pending hcp] at hp
      exact hcp hp
  have hcurrent : ∀ c ∈ sh, c.settled.Visible → c.version.state = .current ∧ c.settled = c := by
    intro c hc hv
    have hl : c.row.status = .live := by
      rw [← Copy.settled_row c]
      exact hv.1
    have hsame := settled_of_live hl
    rw [hsame] at hv
    refine ⟨current_of_visible (hs c hc) hv (fun hp => ?_) (hn c hc), hsame⟩
    exact hr c hc hp hl
  refine ⟨fun x hx y hy hvx hvy => ?_, fun x hx => ?_, fun x hx => ?_⟩
  · obtain ⟨c, hc, rfl⟩ := List.mem_map.mp hx
    obtain ⟨d, hd, rfl⟩ := List.mem_map.mp hy
    rw [Copy.settled_id, Copy.settled_id]
    exact ht.one c hc d hd (hcurrent c hc hvx).1 (hcurrent d hd hvy).1
  · obtain ⟨c, hc, rfl⟩ := List.mem_map.mp hx
    exact hpending c hc
  · obtain ⟨c, hc, rfl⟩ := List.mem_map.mp hx
    constructor
    · intro hcur
      have hcur' := ((settled_descends c).current hcur).1
      have hsame := settled_of_not_pending (c := c) (by rw [hcur']; nofun)
      rw [hsame]
      exact ⟨ht.current c hc hcur', (hs c hc).shown (c.live_iff.mpr (.inl hcur'))⟩
    · intro hv
      obtain ⟨hcur, hsame⟩ := hcurrent c hc hv
      rw [hsame]
      exact hcur

theorem promotes_oneVisible {older : Shelf} {newest : Copy} (hs : ∀ c ∈ older ++ [newest], c.Sound)
    (hp : newest.version.state = .pending) (hl : newest.row.status = .live)
    (hn : NoneRevived (older ++ [newest])) :
    OneVisible ((older.map fun c => c.settled.outdated now) ++ [newest.inState .current]) := by
  have holder : ∀ c ∈ older, (c.settled.outdated now).live = false ∧
      ¬ (c.settled.outdated now).Visible := by
    intro c hc
    have hm : c ∈ older ++ [newest] := List.mem_append_left _ hc
    refine ⟨Copy.outdated_state now c.settled, fun hv => ?_⟩
    by_cases hlive : c.settled.live = true
    · have hpu := (hs c hm).unpurged
      rw [Copy.outdated, if_pos hlive, if_pos (by rw [Copy.settled_row]; exact hpu),
        Copy.settled_row] at hv
      exact Document.retired_deletedAt _ now hpu hv.2
    · have hkeep : c.settled.outdated now = c.settled := if_neg hlive
      rw [hkeep] at hv
      have hsame : c.settled = c := by
        refine settled_of_live ?_
        rw [← Copy.settled_row c]
        exact hv.1
      rw [hsame] at hv hlive
      have hopen := (Copy.live_eq_false c).mp (Bool.eq_false_iff.mpr hlive)
      exact hopen.1 (current_of_visible (hs c hm) hv hopen.2 (hn c hm))
  have hnew : (newest.inState .current).Visible :=
    ⟨hl, (hs newest (by simp)).shown (newest.live_iff.mpr (.inr hp))⟩
  have hcases : ∀ x ∈ (older.map fun c => c.settled.outdated now) ++ [newest.inState .current],
      x.live = false ∧ ¬ x.Visible ∨ x = newest.inState .current := by
    intro x hx
    rcases List.mem_append.mp hx with hx | hx
    · obtain ⟨c, hc, rfl⟩ := List.mem_map.mp hx
      exact .inl (holder c hc)
    · exact .inr (List.mem_singleton.mp hx)
  refine ⟨fun x hx y hy hvx hvy => ?_, fun x hx => ?_, fun x hx => ?_⟩
  · rcases hcases x hx with ⟨-, hnx⟩ | rfl
    · exact absurd hvx hnx
    · rcases hcases y hy with ⟨-, hny⟩ | rfl
      · exact absurd hvy hny
      · rfl
  · rcases hcases x hx with ⟨hlx, -⟩ | rfl
    · exact ((Copy.live_eq_false x).mp hlx).2
    · exact fun h => by cases h
  · rcases hcases x hx with ⟨hlx, hnx⟩ | rfl
    · exact ⟨fun h => absurd h ((Copy.live_eq_false x).mp hlx).1, fun h => absurd h hnx⟩
    · exact ⟨fun _ => hnew, fun _ => rfl⟩

/-- Exactly when a reconciliation of a settled shelf leaves it as it should be. -/
theorem oneVisible_iff (ht : sh.Told) (hs : ∀ c ∈ sh, c.Sound) (hset : sh.Settled) :
    (sh.reconcile now).OneVisible ↔ sh.Ready ∧ sh.NoneRevived := by
  rcases reconcile_cases now sh with ⟨he, hwait⟩ | ⟨older, newest, rfl, hp, hl, he⟩
  · rw [he]
    constructor
    · rintro ⟨-, hpend, hcur⟩
      refine ⟨.inr fun c hc hcp hcl => ?_, fun c hc hg hv => ?_⟩
      · have hm : c ∈ sh.map Copy.settled := List.mem_map.mpr ⟨c, hc, settled_of_live hcl⟩
        exact hpend c hm hcp
      · have hm : c ∈ sh.map Copy.settled := List.mem_map.mpr ⟨c, hc, settled_of_live hv.1⟩
        have hst := (hcur c hm).mpr hv
        rcases hg with hg | hg
        · rw [hg] at hst
          cases hst
        · rw [hg] at hst
          cases hst
    · rintro ⟨⟨newest, hlast, hnp, hnl⟩ | hr, hn⟩
      · have hsame := settled_of_live hnl
        exact absurd hnl (hwait newest hlast (by rw [hsame]; exact hnp))
      · exact waits_oneVisible ht hs hset hr hn
  · rw [he]
    constructor
    · rintro ⟨-, -, hcur⟩
      refine ⟨.inl ⟨newest, by simp, hp, hl⟩, fun c hc hg hv => ?_⟩
      have hclosed : c.live = false := by
        refine (Copy.live_eq_false c).mpr ?_
        rcases hg with hg | hg <;> rw [hg] <;> exact ⟨nofun, nofun⟩
      have hc' : c ∈ older := by
        rcases List.mem_append.mp hc with hc | hc
        · exact hc
        · obtain rfl := List.mem_singleton.mp hc
          rw [hp] at hg
          rcases hg with hg | hg <;> cases hg
      have hkeep : c.settled.outdated now = c := by
        rw [settled_of_live hv.1]
        exact if_neg (by rw [hclosed]; exact Bool.false_ne_true)
      have hm : c ∈ (older.map fun c => c.settled.outdated now) ++ [newest.inState .current] :=
        List.mem_append_left _ (List.mem_map.mpr ⟨c, hc', hkeep⟩)
      have hst := (hcur c hm).mpr hv
      rcases hg with hg | hg
      · rw [hg] at hst
        cases hst
      · rw [hg] at hst
        cases hst
    · rintro ⟨-, hn⟩
      exact promotes_oneVisible hs hp hl hn

end Shelf

/-- One document of the file is seen at most, nothing is pending, and current is what is seen. -/
def OneVisible (s : DriveState) (f : FileId) : Prop :=
  (∀ d ∈ s.ids f, ∀ e ∈ s.ids f, s.Visible d → s.Visible e → d = e) ∧
    (∀ v ∈ s.versions f, v.state ≠ .pending) ∧
    ∀ v ∈ s.versions f, v.state = .current ↔ s.Visible v.documentId

instance (s : DriveState) (f : FileId) : Decidable (OneVisible s f) := by
  unfold OneVisible
  infer_instance

/-- The pipeline is done with every document of the file. -/
def AllSettled (s : DriveState) (f : FileId) : Prop :=
  ∀ v ∈ s.versions f, ∀ r ∈ s.doc v.documentId,
    r.status = .live ∨ r.status = .duplicate ∨ r.status = .superseded ∨
      r.status ∈ failedStatuses

instance (s : DriveState) (f : FileId) : Decidable (AllSettled s f) := by
  unfold AllSettled
  infer_instance

/-- The newest version is pending with a live document, or no version is. -/
def PromotionReady (s : DriveState) (f : FileId) : Prop :=
  (∃ newest, (s.versions f).getLast? = some newest ∧ newest.state = .pending ∧
      ∀ r ∈ s.doc newest.documentId, r.status = .live) ∨
    ∀ v ∈ s.versions f, v.state = .pending → ∀ r ∈ s.doc v.documentId, r.status ≠ .live

/-- No document of a version given up as failed or as a duplicate is seen. -/
def NoneRevived (s : DriveState) (f : FileId) : Prop :=
  ∀ v ∈ s.versions f, v.state = .failed ∨ v.state = .duplicate → ¬ s.Visible v.documentId

section Bridge

variable {s : DriveState} {f : FileId} {c : Copy} {v : FileVersion}

theorem copy_of_version (hs : Tracked s) (hv : v ∈ s.versions f) :
    ∃ r, s.doc v.documentId = some r ∧ { version := v, row := r.unversioned } ∈ s.shelf f := by
  obtain ⟨r, hr⟩ := Option.ne_none_iff_exists'.mp (hs.known f _ (List.mem_map_of_mem hv))
  exact ⟨r, hr, DriveState.mem_shelf.mpr ⟨hv, r, hr, rfl⟩⟩

theorem visible_copy (hc : c ∈ s.shelf f) : c.Visible ↔ s.Visible c.id := by
  obtain ⟨-, r, hr, hrow⟩ := DriveState.mem_shelf.mp hc
  constructor
  · intro hv
    rw [Copy.Visible, hrow] at hv
    exact ⟨r, hr, hv⟩
  · rintro ⟨r', hr', hv⟩
    obtain rfl := Option.some.inj (hr.symm.trans hr')
    rw [Copy.Visible, hrow]
    exact hv

theorem oneVisible_shelf (hs : Tracked s) : (s.shelf f).OneVisible ↔ OneVisible s f := by
  constructor
  · rintro ⟨hone, hpend, hcur⟩
    refine ⟨fun d hd e he hvd hve => ?_, fun v hv => ?_, fun v hv => ?_⟩
    · obtain ⟨v, hv, rfl⟩ := List.mem_map.mp hd
      obtain ⟨u, hu, rfl⟩ := List.mem_map.mp he
      obtain ⟨r, -, hc⟩ := copy_of_version hs hv
      obtain ⟨q, -, hc'⟩ := copy_of_version hs hu
      exact hone _ hc _ hc' ((visible_copy hc).mpr hvd) ((visible_copy hc').mpr hve)
    · obtain ⟨r, -, hc⟩ := copy_of_version hs hv
      exact hpend _ hc
    · obtain ⟨r, -, hc⟩ := copy_of_version hs hv
      exact (hcur _ hc).trans (visible_copy hc)
  · rintro ⟨hone, hpend, hcur⟩
    refine ⟨fun c hc c' hc' hv hv' => ?_, fun c hc => ?_, fun c hc => ?_⟩
    · have hm := (DriveState.mem_shelf.mp hc).1
      have hm' := (DriveState.mem_shelf.mp hc').1
      exact hone _ (List.mem_map_of_mem hm) _ (List.mem_map_of_mem hm')
        ((visible_copy hc).mp hv) ((visible_copy hc').mp hv')
    · exact hpend _ (DriveState.mem_shelf.mp hc).1
    · exact (hcur _ (DriveState.mem_shelf.mp hc).1).trans (visible_copy hc).symm

theorem settled_shelf (h : AllSettled s f) : (s.shelf f).Settled := by
  intro c hc
  obtain ⟨hv, r, hr, hrow⟩ := DriveState.mem_shelf.mp hc
  rw [hrow]
  exact h c.version hv r hr

theorem ready_shelf (hs : Tracked s) : (s.shelf f).Ready ↔ PromotionReady s f := by
  have hlast : (s.versions f).getLast? = (s.shelf f).getLast?.map Copy.version := by
    rw [← DriveState.shelf_versions hs f, Shelf.versions, List.getLast?_map]
  have hlive : ∀ c ∈ s.shelf f, c.row.status = .live ↔ ∀ r ∈ s.doc c.id, r.status = .live := by
    intro c hc
    obtain ⟨-, r, hr, hrow⟩ := DriveState.mem_shelf.mp hc
    rw [hrow]
    constructor
    · intro hl q hq
      obtain rfl := Option.some.inj (hr.symm.trans hq)
      exact hl
    · exact fun h => h r hr
  refine or_congr ?_ ?_
  · constructor
    · rintro ⟨c, hc, hp, hl⟩
      have hl' := (hlive c (List.mem_of_getLast? hc)).mp hl
      exact ⟨c.version, by rw [hlast, hc]; rfl, hp, hl'⟩
    · rintro ⟨v, hv, hp, hl⟩
      obtain ⟨c, hc, rfl⟩ := Option.map_eq_some_iff.mp (hlast.symm.trans hv)
      exact ⟨c, hc, hp, (hlive c (List.mem_of_getLast? hc)).mpr hl⟩
  · constructor
    · intro h v hv hp r hr
      obtain ⟨q, hq, hc⟩ := copy_of_version hs hv
      obtain rfl := Option.some.inj (hq.symm.trans hr)
      exact h _ hc hp
    · intro h c hc hp
      obtain ⟨hv, r, hr, hrow⟩ := DriveState.mem_shelf.mp hc
      rw [hrow]
      exact h c.version hv hp r hr

theorem noneRevived_shelf (hs : Tracked s) : (s.shelf f).NoneRevived ↔ NoneRevived s f := by
  constructor
  · intro h v hv hg hvis
    obtain ⟨r, -, hc⟩ := copy_of_version hs hv
    exact h _ hc hg ((visible_copy hc).mpr hvis)
  · intro h c hc hg hvis
    exact h c.version (DriveState.mem_shelf.mp hc).1 hg ((visible_copy hc).mp hvis)

end Bridge

namespace SyncState

variable {sv : Services} {cfg : DriveConfig} {s t : SyncState} {a : SyncAction} {f : FileId}

theorem enduring_of_step (hs : Enduring s.store) (h : step sv cfg s a = some t) : Enduring t.store := by
  obtain ⟨hlast, htracks⟩ := tracks_of_step h
  have hmortal : ∀ g, ∀ d ∈ s.store.ids g, ∀ r', t.store.doc d = some r' → Mortal r' := by
    intro g d hd r' hr'
    obtain ⟨r, hr⟩ := Option.ne_none_iff_exists'.mp (hs.known g d hd)
    obtain ⟨r'', hr'', hm⟩ := hlast.kept d r hr
    obtain rfl := Option.some.inj (hr'.symm.trans hr'')
    exact hm (hs.mortal g d hd r hr)
  have hsame : (∀ g, t.store.ids g = s.store.ids g) → Enduring t.store := by
    intro hids
    refine ⟨fun g => ?_, fun g d hd => ?_, fun g d hd => ?_⟩
    · rw [hids g]
      exact hs.nodup g
    · exact hlast.doc_ne_none (hs.known g d (hids g ▸ hd))
    · exact hmortal g d (hids g ▸ hd)
  cases htracks with
  | keeps hids hnone => exact hsame hids
  | attempts id g hat hfresh hst =>
    cases hx : standing sv cfg s a with
    | unborn | owes =>
      rw [hx] at hst
      exact hsame hst.2
    | named =>
      rw [hx] at hst
      obtain ⟨hdoc, hids⟩ := hst
      have hnew : ∀ k, id ∉ s.store.ids k := fun k hk => hs.known k id hk hfresh
      have hcases : ∀ k d, d ∈ t.store.ids k → d ∈ s.store.ids k ∨ d = id := by
        intro k d hd
        rw [hids k] at hd
        split at hd
        · simpa using hd
        · exact .inl hd
      refine ⟨fun k => ?_, fun k d hd => ?_, fun k d hd r' hr' => ?_⟩
      · rw [hids k]
        split
        · rw [List.nodup_append]
          refine ⟨hs.nodup k, by simp, fun d hd e he => ?_⟩
          rintro rfl
          obtain rfl := List.mem_singleton.mp he
          exact hnew k hd
        · exact hs.nodup k
      · rcases hcases k d hd with hd | rfl
        · exact hlast.doc_ne_none (hs.known k d hd)
        · exact hdoc
      · rcases hcases k d hd with hd | rfl
        · exact hmortal k d hd r' hr'
        · exact hlast.born d r' hfresh hr'

theorem Fresh.enduring (h : s.Fresh) : Enduring s.store := by
  have hids : ∀ g, s.store.ids g = [] := fun g => by rw [DriveState.ids, h.versions g]; rfl
  refine ⟨fun g => ?_, fun g d hd => ?_, fun g d hd => ?_⟩
  · rw [hids g]
    exact List.nodup_nil
  · rw [hids g] at hd
    cases hd
  · rw [hids g] at hd
    cases hd

/-- A version that is seen is retired in favour of one people can see, except where the newest
one has been deleted by hand before it was promoted. -/
theorem retired_for_visible_iff {as : List SyncAction} (hs : s.Fresh)
    (h : Transition.Runs (step sv cfg) (fun _ _ => True) s as t) (f : FileId) :
    RetiresForVisible t.store (reconcileFile sv t.store f) f ↔
      (HiddenNewest t.store f → NoneOlderSeen t.store f) :=
  retiresForVisible_iff (h.invariant (I := fun u => Enduring u.store)
    (fun _ _ _ hk _ hu => enduring_of_step hk hu) hs.enduring)

def editions (edition : String) : Listing :=
  .of [(memoFile "f" edition 1, .public, "root")] (by simp)

/-- Imported, live and current; edited, and the new version live. -/
def editedAndLive : List SyncAction :=
  fullPass (editions "1") [syncing 0 [37]] 0 1 ++ [.finish] ++ pipeline 0 ++
    fullPass (editions "1") [syncing 1 [37]] 0 1 ++ [.finish] ++
    fullPass (editions "2") [syncing 1 [38]] 0 1 ++ [.finish] ++ pipeline 1

/-- The next pass up to the reconciliation of the file. -/
def upToReconciliation : List SyncAction := fullPass (editions "2") [syncing 2 [38]] 0 0

theorem retired_for_erased : ¬ ∀ (sv : Services) (cfg : DriveConfig) (s t : SyncState)
    (as : List SyncAction) (f : FileId), s.Fresh →
    Transition.Runs (step sv cfg) (fun _ _ => True) s as t →
    RetiresForVisible t.store (reconcileFile sv t.store f) f := by
  intro hall
  have hrun : Transition.Runs (step tellingServices plainDrive) (fun _ _ => True) start
      (editedAndLive ++ [.erase 1] ++ upToReconciliation) _ :=
    Transition.runs_of_exec_free (by decide +kernel)
  have hretires := hall tellingServices plainDrive start _ _ "f" start_fresh hrun
  revert hretires
  decide +kernel

def beforePromotion : SyncState :=
  Transition.finalState (step tellingServices plainDrive) start (editedAndLive ++ upToReconciliation)

theorem retired_for_live :
    (RetiresForVisible beforePromotion.store
        (reconcileFile tellingServices beforePromotion.store "f") "f" ↔
      (HiddenNewest beforePromotion.store "f" → NoneOlderSeen beforePromotion.store "f")) ∧
    beforePromotion.store.Visible 0 ∧
    ¬ (reconcileFile tellingServices beforePromotion.store "f").Visible 0 :=
  ⟨retired_for_visible_iff start_fresh (Transition.runs_of_exec_free (by decide +kernel)) "f",
    by decide +kernel, by decide +kernel⟩

theorem told_of_step (hs : Tracked s.store) (h : (s.store.shelf f).Told)
    (hstep : FileStep sv cfg f s a t) : (t.store.shelf f).Told := by
  have hrewritten : ∀ {id : DocumentId} {g : Document → Document},
      (∀ r, (g r).status = r.status) →
      t.store.shelf f = (s.store.shelf f).map (Copy.rewritten id g) → (t.store.shelf f).Told := by
    intro id g hg he
    refine h.descends fun c' hc' => ?_
    rw [he] at hc'
    obtain ⟨c, hc, rfl⟩ := List.mem_map.mp hc'
    refine ⟨c, hc, ?_⟩
    unfold Copy.rewritten
    split
    · exact .same rfl (hg c.row)
    · exact .same rfl rfl
  cases hstep with
  | aside a t hfile hshelf =>
    rw [hshelf]
    exact h
  | revisits id fetched luck item tier folderId row t hf hnext hk hc hfile hshelf =>
    rw [hshelf]
    exact h.descends (Shelf.revisit_descends (shelf_nodup hs f))
  | passesOver id fetched luck item tier folderId state reason t hf hnext hn hstate hfile hshelf =>
    rw [hshelf]
    exact h
  | imports id fetched luck item tier folderId data mimeType t hf hnext hfresh hn hd hm hfile
      hshelf =>
    rw [hshelf]
    refine ⟨fun c hc hcur => ?_, fun c hc hw => ?_, fun c hc c' hc' hcur hcur' => ?_⟩
    · rcases List.mem_append.mp hc with hc | hc
      · exact h.current c hc hcur
      · obtain rfl := List.mem_singleton.mp hc
        cases hcur
    · rcases List.mem_append.mp hc with hc | hc
      · exact h.waiting c hc hw
      · obtain rfl := List.mem_singleton.mp hc
        exact nofun
    · rcases List.mem_append.mp hc with hc | hc
      · rcases List.mem_append.mp hc' with hc' | hc'
        · exact h.one c hc c' hc' hcur hcur'
        · obtain rfl := List.mem_singleton.mp hc'
          cases hcur'
      · obtain rfl := List.mem_singleton.mp hc
        cases hcur
  | retires listing limited files row t hp hrow hfile hshelf =>
    rw [hshelf]
    exact h.descends Shelf.retire_descends
  | reconciles listing limited files t hp hfile hshelf =>
    rw [hshelf]
    exact Shelf.reconcile_told h
  | works stage id luck operations t hfile hshelf hidle =>
    have hguard : ∀ c ∈ s.store.shelf f, c.id = id → c.row.status = .live →
        t.store.shelf f = s.store.shelf f := by
      intro c hc hid hl
      refine hidle c hc hid ?_
      rw [hl]
      cases stage <;> decide
    by_cases hlive : ∃ c ∈ s.store.shelf f, c.id = id ∧ c.row.status = .live
    · obtain ⟨c, hc, hid, hl⟩ := hlive
      rw [hguard c hc hid hl]
      exact h
    · refine h.descends fun c' hc' => ?_
      obtain ⟨c, hc, hv, hw⟩ := before_of_mem hshelf hc'
      refine ⟨c, hc, ?_⟩
      by_cases hid : c.row.id = id
      · have hcid : c.id = id := (shelf_row_id hc).symm.trans hid
        obtain ⟨-, hst⟩ := hw.own hid
        refine ⟨by rw [Copy.id, hv, Copy.id], fun hcur => ?_, fun hw' => ?_⟩
        · rw [hv] at hcur
          exact absurd ⟨c, hc, hcid, h.current c hc hcur⟩ hlive
        · rw [hv] at hw'
          refine ⟨hw'.elim .inl fun h => .inr (.inl h), fun hsup => ?_⟩
          rcases hst with hst | hst
          · exact hst ▸ hsup
          · rw [hsup] at hst
            cases stage <;> simp [exitStatuses] at hst
      · refine .same hv ?_
        have hrow := (hw.other hid).1
        rw [hrow]
  | classifies id tier t hfile hshelf =>
    refine hrewritten ?_ hshelf
    exact fun _ => rfl
  | restores id t hfile hshelf =>
    refine hrewritten (fun r => ?_) hshelf
    unfold Document.shown
    split <;> rfl
  | erases id t hfile hshelf =>
    refine h.descends fun c' hc' => ?_
    obtain ⟨c, hc, hv, he⟩ := before_of_mem hshelf hc'
    refine ⟨c, hc, .same hv ?_⟩
    rcases he with he | ⟨-, hs, -⟩
    · rw [he]
    · exact hs

/-- What a history keeps of one file. -/
structure InOrder (f : FileId) (s : SyncState) : Prop where
  tracked : Tracked s.store
  orderly : Orderly (s.store.file f) (s.store.shelf f)
  told : (s.store.shelf f).Told

theorem inOrder_of_step (hs : InOrder f s) (ha : a.HandsOff) (h : StepCases sv cfg s a t) :
    InOrder f t :=
  have hstep := fileStep_of_cases hs.tracked h f
  ⟨tracked_of_step hs.tracked h, orderly_of_step hs.tracked hs.orderly ha hstep,
    told_of_step hs.tracked hs.told hstep⟩

theorem Fresh.inOrder (h : s.Fresh) (f : FileId) : InOrder f s where
  tracked := h.tracked
  orderly := h.orderly f
  told := by
    rw [h.shelf f]
    exact ⟨by simp, by simp, by simp⟩

/-- Once the pipeline is done, a reconciliation leaves one visible version at most and nothing
pending, exactly where a pending version with a live document is the newest and none that was
given up is seen. -/
theorem one_visible_iff {as : List SyncAction} (hs : s.Fresh)
    (h : Transition.Runs (step sv cfg) (fun _ a => a.Undisturbed ∧ a.HandsOff) s as t)
    (f : FileId) (hset : AllSettled t.store f) :
    OneVisible (reconcileFile sv t.store f) f ↔
      PromotionReady t.store f ∧ NoneRevived t.store f := by
  have hinv : InOrder f t := h.invariant (I := InOrder f) (fun _ _ _ hi hok hu =>
    inOrder_of_step hi hok.2 (step_cases hu hok.1)) (hs.inOrder f)
  have htracked : Tracked (reconcileFile sv t.store f) :=
    hinv.tracked.of_reconciled (reconcileFile_spec sv t.store f)
  rw [← oneVisible_shelf htracked, reconcile_shelf hinv.tracked,
    Shelf.oneVisible_iff hinv.told hinv.orderly.sound (settled_shelf hset),
    ready_shelf hinv.tracked, noneRevived_shelf hinv.tracked]

/-- Imported and edited; then the pipeline takes the first version to LIVE and rejects the
second; and the next pass up to the reconciliation. -/
def secondRejected : List SyncAction :=
  fullPass (editions "1") [syncing 0 [37]] 0 1 ++ [.finish] ++
    fullPass (editions "2") [syncing 1 [0]] 0 1 ++ [.finish] ++ pipeline 0 ++
    [working .scan 1] ++ fullPass (editions "2") [syncing 2 [0]] 0 0

theorem live_version_left_pending : ¬ ∀ (sv : Services) (cfg : DriveConfig) (s t : SyncState)
    (as : List SyncAction) (f : FileId), s.Fresh →
    Transition.Runs (step sv cfg) (fun _ a => a.Undisturbed ∧ a.HandsOff) s as t →
    AllSettled t.store f → OneVisible (reconcileFile sv t.store f) f := by
  intro hall
  have hgood : ∀ a ∈ secondRejected, a.Undisturbed ∧ a.HandsOff := by
    simp [secondRejected, fullPass, pipeline, working, syncing, SyncAction.Undisturbed,
      SyncAction.HandsOff, DriveLuck.fine]
  have hrun : Transition.Runs (step tellingServices plainDrive)
      (fun _ a => a.Undisturbed ∧ a.HandsOff) start secondRejected _ :=
    Transition.runs_of_exec_on (fun _ _ => true) _ (fun _ _ h _ => h) hgood (by decide +kernel)
  have hone := hall tellingServices plainDrive start _ _ "f" start_fresh hrun (by decide +kernel)
  revert hone
  decide +kernel

theorem edited_one_visible :
    (OneVisible (reconcileFile tellingServices beforePromotion.store "f") "f" ↔
      PromotionReady beforePromotion.store "f" ∧ NoneRevived beforePromotion.store "f") ∧
    OneVisible (reconcileFile tellingServices beforePromotion.store "f") "f" := by
  have hgood : ∀ a ∈ editedAndLive ++ upToReconciliation, a.Undisturbed ∧ a.HandsOff := by
    simp [editedAndLive, upToReconciliation, fullPass, pipeline, working, syncing,
      SyncAction.Undisturbed, SyncAction.HandsOff, DriveLuck.fine]
  exact ⟨one_visible_iff start_fresh (Transition.runs_of_exec_on (fun _ _ => true) _
    (fun _ _ h _ => h) hgood (by decide +kernel)) "f" (by decide +kernel), by decide +kernel⟩

end SyncState

end KnowledgeBase
