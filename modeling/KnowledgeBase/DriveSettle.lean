import KnowledgeBase.DriveItem

/-! What the retirement of a file that is gone and the reconciliation of its versions leave
behind: the rows of the versions and of the documents, in full. -/

namespace KnowledgeBase

open Program

namespace Document

/-- The row but for the two columns that link versions. -/
def unversioned (d : Document) : Document := { d with version := 0, supersedesId := none }

variable {a b : Document} {now : Nat}

theorem hidden_hidden (d : Document) (now : Nat) : (d.hidden now).hidden now = d.hidden now := by
  by_cases h : d.deletedAt = none ∧ d.purgedAt = none
  · have hh : d.hidden now = { d with deletedAt := some now } := if_pos h
    rw [hh]
    exact if_neg fun h' => nomatch h'.1
  · have hh : d.hidden now = d := if_neg h
    rw [hh, hh]

theorem hidden_deletedAt (d : Document) (now : Nat) (hp : d.purgedAt = none) :
    (d.hidden now).deletedAt ≠ none := by
  by_cases h : d.deletedAt = none
  · have hh : d.hidden now = { d with deletedAt := some now } := if_pos ⟨h, hp⟩
    rw [hh]
    exact Option.some_ne_none now
  · have hh : d.hidden now = d := if_neg fun h' => h h'.1
    rw [hh]
    exact h

theorem retired_deletedAt (d : Document) (now : Nat) (hp : d.purgedAt = none) :
    (d.retired now).deletedAt ≠ none := hidden_deletedAt _ now hp

theorem retired_unversioned (d : Document) (now : Nat) :
    (d.retired now).unversioned = d.unversioned.retired now := by
  unfold retired hidden
  split <;> rename_i h <;> simp only [unversioned] at h ⊢ <;> simp [h]

theorem retired_retired (d : Document) (now : Nat) :
    (d.retired now).retired now = d.retired now := by
  have hs : ({ d.retired now with status := .superseded } : Document) = d.retired now := by
    unfold retired hidden
    split <;> rfl
  rw [retired, hs]
  exact hidden_hidden _ now

end Document

namespace DriveSyncService

variable {sv : Services} {s t : DriveState} {f : FileId} {w w' : World}

theorem retireDocument_docs (w : World) (d j : DocumentId) :
    (retireDocument w d).doc j =
      (w.doc j).map fun r => if j = d then r.hidden w.now else r := by
  unfold retireDocument
  split
  · obtain ⟨a, ha⟩ := auditEvent_eq (w.softDelete d).2 d .documentDeleted true
    rw [ha]
    exact softDelete_docs d j
  · exact softDelete_docs d j

theorem retireDocument_frame (w : World) (d : DocumentId) :
    (retireDocument w d).now = w.now ∧ (retireDocument w d).objects = w.objects := by
  obtain ⟨docs, hdocs⟩ := softDelete_snd (w := w) d
  unfold retireDocument
  split
  · obtain ⟨a, ha⟩ := auditEvent_eq (w.softDelete d).2 d .documentDeleted true
    rw [ha, hdocs]
    exact ⟨rfl, rfl⟩
  · rw [hdocs]
    exact ⟨rfl, rfl⟩

/-- All rows after the documents of a list have been hidden. -/
theorem retireAll_docs (ids : List DocumentId) (w : World) :
    (ids.foldl retireDocument w).objects = w.objects ∧
      ∀ j, (ids.foldl retireDocument w).doc j =
        (w.doc j).map fun r => if j ∈ ids then r.hidden w.now else r := by
  induction ids generalizing w with
  | nil => exact ⟨rfl, fun j => by simp⟩
  | cons d ids ih =>
    obtain ⟨hnow, hobjects⟩ := retireDocument_frame w d
    obtain ⟨iho, ihd⟩ := ih (retireDocument w d)
    rw [List.foldl_cons]
    refine ⟨iho.trans hobjects, fun j => ?_⟩
    rw [ihd, retireDocument_docs, Option.map_map, hnow]
    cases w.doc j with
    | none => rfl
    | some r =>
      by_cases hj : j = d <;> by_cases hm : j ∈ ids <;>
        simp [hj, hm, Document.hidden_hidden]

/-- The operations a retirement consists of: none of them moves a file. -/
def Retires : Op → Prop
  | .audit _ _ _ | .getById _ => True
  | op => op.row ≠ none

/-- What is left of a file that is gone. -/
theorem retireFile_spec {row : DriveFileRow} (hrow : s.file f = some row) :
    ∃ w : World, w.objects = s.world.objects ∧
      (∀ d, w.doc d = (s.doc d).map fun r =>
        if d ∈ targets (s.versions f) row then r.hidden s.world.now else r) ∧
      retireFile s f = (({ s with world := w } : DriveState).putVersions f
        ((s.versions f).map (FileVersion.retired .removed))).putFile f
          { row with
            state := .removed, skipReason := some "no longer in a watched Drive folder" } := by
  obtain ⟨hobjects, hdocs⟩ := retireAll_docs (targets (s.versions f) row) s.world
  refine ⟨_, hobjects, hdocs, ?_⟩
  rw [retireFile, hrow]
  rfl

theorem supersede_sends (old new : Option Document) :
    (supersede old new).Sends Retires (fun _ _ => True) := by
  unfold supersede
  split
  · trivial
  · split
    · trivial
    · refine sends_bind (sends_perform trivial) fun old => ?_
      cases old with
      | none => trivial
      | some old =>
        refine sends_bind (sends_perform nofun) fun _ => ?_
        refine sends_bind (sends_perform nofun) fun _ => ?_
        refine sends_bind ?_ fun _ => sends_perform trivial
        unfold linkNew
        split
        · trivial
        · refine sends_bind (sends_perform trivial) fun new => ?_
          cases new with
          | none => trivial
          | some new => exact sends_perform nofun

theorem supersede_frame {old new : Option Document} {o : Except Exn Unit}
    (h : Ends (Acts sv) (supersede old new) w o w') : w'.now = w.now ∧ w'.objects = w.objects := by
  refine h.invariant (I := fun u : World => u.now = w.now ∧ u.objects = w.objects)
    (supersede_sends old new) ?_ ⟨rfl, rfl⟩
  intro op u r u' hop ha hu
  by_cases hrow : op.row = none
  · cases op
    case audit id event again =>
      obtain ⟨-, a, rfl⟩ := acts_audit ha
      exact hu
    case getById id =>
      obtain ⟨-, rfl⟩ := acts_getById.mp ha
      exact hu
    all_goals exact absurd hrow hop
  · obtain ⟨t, rfl⟩ := acts_of_row ha hrow
    exact hu

/-- A run with nothing going wrong is a run. -/
theorem ends_run_fine {α : Type} (p : Stage α) (w : World) :
    Ends (Acts sv) p w (run (effect sv) (fun _ => .fine) p w).1
      (run (effect sv) (fun _ => .fine) p w).2 :=
  ends_run (fun _ _ _ => ⟨.fine, rfl⟩) p w

/-- The rows a version that is retired in favour of the newest leaves. -/
def supersededRow (w : World) (ids : List DocumentId) (j : DocumentId) (r : Document) : Document :=
  if j ∈ ids ∧ r.purgedAt = none then r.retired w.now else r

theorem supersededRow_unversioned (w : World) (ids : List DocumentId) (j : DocumentId)
    (r : Document) :
    (supersededRow w ids j r).unversioned = supersededRow w ids j r.unversioned := by
  have hp : r.unversioned.purgedAt = r.purgedAt := rfl
  unfold supersededRow
  rw [hp]
  split
  · exact Document.retired_unversioned r w.now
  · rfl

theorem supersededRow_append (w : World) (ids more : List DocumentId) (j : DocumentId)
    (r : Document) :
    supersededRow w (ids ++ more) j r = supersededRow w more j (supersededRow w ids j r) := by
  unfold supersededRow
  by_cases h : j ∈ ids <;> by_cases hm : j ∈ more <;> by_cases hp : r.purgedAt = none <;>
    simp [h, hm, hp, Document.retired_retired]

theorem supersedeVersion_spec (newest : DocumentId) (w : World) (v : FileVersion) :
    (supersedeVersion sv newest w v).now = w.now ∧
      (supersedeVersion sv newest w v).objects = w.objects ∧
      ∀ j, ((supersedeVersion sv newest w v).doc j).map Document.unversioned =
        (w.doc j).map fun r =>
          (supersededRow w (if v.live then [v.documentId] else []) j r).unversioned := by
  unfold supersedeVersion
  by_cases hl : v.live = true
  · rw [if_pos hl, if_pos hl]
    have hends : Ends (Acts sv) (supersede (w.doc v.documentId) (w.doc newest)) w _ _ :=
      ends_run_fine _ w
    have hframe := supersede_frame hends
    refine ⟨hframe.1, hframe.2, fun j => ?_⟩
    cases hold : w.doc v.documentId with
    | none =>
      rw [hold] at hends
      have hsame := (ends_ret.mp hends).2
      rw [hsame]
      cases hj : w.doc j with
      | none => rfl
      | some r =>
        have hne : j ≠ v.documentId := by
          rintro rfl
          rw [hold] at hj
          cases hj
        simp [supersededRow, hne]
    | some old =>
      rw [hold] at hends
      have hid : old.id = v.documentId := Documents.get_id hold
      have hold' : w.doc old.id = some old := by rw [hid]; exact hold
      by_cases hp : old.purgedAt = none
      · rw [supersede_doc hold' hp hends j, Option.map_map]
        cases hj : w.doc j with
        | none => rfl
        | some r =>
          have hsame : j = old.id → r.purgedAt = none := by
            rintro rfl
            rw [hold'] at hj
            rw [← Option.some.inj hj]
            exact hp
          simp only [Option.map_some, Function.comp_apply, supersededRow, List.mem_singleton,
            ← hid, Option.some.injEq]
          by_cases hjo : j = old.id
          · simp only [hjo, hsame hjo, and_self, if_true]
            split <;> rfl
          · simp only [hjo, false_and, if_false]
            split <;> rfl
      · have hskip : supersede (some old) (w.doc newest) = pure () := by
          rw [supersede, if_pos hp]
        rw [hskip] at hends ⊢
        have hsame := (ends_ret.mp hends).2
        rw [hsame]
        cases hj : w.doc j with
        | none => rfl
        | some r =>
          have hne : ¬ (j = v.documentId ∧ r.purgedAt = none) := by
            rintro ⟨rfl, hr⟩
            rw [hold] at hj
            rw [Option.some.inj hj] at hp
            exact hp hr
          simp [supersededRow, hne]
  · rw [if_neg hl, if_neg hl]
    exact ⟨rfl, rfl, fun j => by simp [supersededRow]⟩

/-- The documents of the versions that are retired in favour of a newer one. -/
def outdated (versions : List FileVersion) : List DocumentId :=
  (versions.filter FileVersion.live).map FileVersion.documentId

theorem outdated_cons (v : FileVersion) (versions : List FileVersion) :
    outdated (v :: versions) = (if v.live then [v.documentId] else []) ++ outdated versions := by
  unfold outdated
  by_cases h : v.live = true <;> simp [h]

theorem supersedeAll_spec (newest : DocumentId) (versions : List FileVersion) (w : World) :
    (versions.foldl (supersedeVersion sv newest) w).objects = w.objects ∧
      ∀ j, ((versions.foldl (supersedeVersion sv newest) w).doc j).map Document.unversioned =
        (w.doc j).map fun r => (supersededRow w (outdated versions) j r).unversioned := by
  induction versions generalizing w with
  | nil => exact ⟨rfl, fun j => by simp [supersededRow, outdated]⟩
  | cons v versions ih =>
    obtain ⟨hnow, hobjects, hdocs⟩ := @supersedeVersion_spec sv newest w v
    obtain ⟨iho, ihd⟩ := ih (supersedeVersion sv newest w v)
    rw [List.foldl_cons]
    refine ⟨iho.trans hobjects, fun j => ?_⟩
    have hrow : ∀ r, supersededRow (supersedeVersion sv newest w v) (outdated versions) j r =
        supersededRow w (outdated versions) j r := by
      intro r
      rw [supersededRow, supersededRow, hnow]
    calc ((versions.foldl (supersedeVersion sv newest)
            (supersedeVersion sv newest w v)).doc j).map Document.unversioned
        = (((supersedeVersion sv newest w v).doc j).map Document.unversioned).map
            (supersededRow w (outdated versions) j) := by
          rw [ihd, Option.map_map]
          simp only [hrow, supersededRow_unversioned]
          rfl
      _ = (w.doc j).map fun r =>
            (supersededRow w (outdated (v :: versions)) j r).unversioned := by
          rw [hdocs, Option.map_map, outdated_cons]
          simp only [supersededRow_append, supersededRow_unversioned]
          rfl

/-- What the reconciliation of a file's versions leaves. -/
inductive Reconciled (f : FileId) (s : DriveState) : DriveState → Prop
  | waits (hn : ∀ newest, ((s.versions f).map (settled s.world)).getLast? = some newest →
        newest.state = .pending →
          (s.doc newest.documentId).map Document.status ≠ some .live) :
      Reconciled f s (s.putVersions f ((s.versions f).map (settled s.world)))
  | promotes (older : List FileVersion) (newest : FileVersion) (w : World)
      (hv : (s.versions f).map (settled s.world) = older ++ [newest])
      (hp : newest.state = .pending)
      (hl : (s.doc newest.documentId).map Document.status = some .live)
      (hobjects : w.objects = s.world.objects)
      (hdocs : ∀ d, (w.doc d).map Document.unversioned =
        (s.doc d).map fun r => (supersededRow s.world (outdated older) d r).unversioned) :
      Reconciled f s (({ s with world := w } : DriveState).putVersions f
        (older.map (FileVersion.retired .superseded) ++ [{ newest with state := .current }]))

theorem reconcileFile_spec (sv : Services) (s : DriveState) (f : FileId) :
    Reconciled f s (reconcileFile sv s f) := by
  unfold reconcileFile
  dsimp only
  cases hlast : ((s.versions f).map (settled s.world)).getLast? with
  | none =>
    have hnil : (s.versions f).map (settled s.world) = [] := List.getLast?_eq_none_iff.mp hlast
    have hsame : s = s.putVersions f ((s.versions f).map (settled s.world)) := by
      rw [hnil, ← List.map_eq_nil_iff.mp hnil, DriveState.putVersions_self]
    dsimp only
    nth_rewrite 2 [hsame]
    exact .waits fun newest hn => by rw [hlast] at hn; cases hn
  | some newest =>
    dsimp only
    split
    · rename_i hkeep
      refine .waits fun n hn hp => ?_
      rw [hlast] at hn
      obtain rfl := Option.some.inj hn
      exact hkeep.resolve_left (not_not.mpr hp)
    · rename_i hkeep
      obtain ⟨hp, hl⟩ := not_or.mp hkeep
      have hv : (s.versions f).map (settled s.world) =
          ((s.versions f).map (settled s.world)).dropLast ++ [newest] :=
        (List.dropLast_append_getLast? newest hlast).symm
      have hall := @supersedeAll_spec sv newest.documentId
        ((s.versions f).map (settled s.world)).dropLast s.world
      exact .promotes _ newest _ hv (not_not.mp hp) (not_not.mp hl) hall.1 hall.2

end DriveSyncService

end KnowledgeBase
