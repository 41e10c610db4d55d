import KnowledgeBase.DriveSync

/-! What the sync of one file leaves behind while the database is up: the rows of the
file, its versions and the documents, in full. -/

namespace KnowledgeBase

open Program

/-- The database is up; the storage may do as it likes. -/
def Steady (sv : Services) (fetched : Except Exn Bytes) :
    Program.Acts DriveOp DriveOp.Resp Exn DriveState :=
  fun op s r s' => ∃ c : Luck, driveEffect sv fetched { storage := c, outage := none } op s = (r, s')

section Rules

variable {α β : Type} {sv : Services} {fetched : Except Exn Bytes} {s t : DriveState}
  {o : Except Exn β} {f : FileId}

theorem ends_onDocuments {p : Stage α} {o : Except Exn α} :
    Ends (Steady sv fetched) (onDocuments p) s o t ↔
      ∃ w, Ends (Acts sv) p s.world o w ∧ t = { s with world := w } := by
  constructor
  · intro h
    induction p generalizing s with
    | ret a =>
      obtain ⟨rfl, rfl⟩ := ends_ret.mp h
      exact ⟨_, .ret a _, rfl⟩
    | raise e =>
      obtain ⟨rfl, rfl⟩ := ends_raise.mp h
      exact ⟨_, .raise e _, rfl⟩
    | call op next ih =>
      cases h with
      | call ha h =>
        obtain ⟨c, hc⟩ := ha
        obtain ⟨rfl, rfl⟩ := Prod.mk.inj hc
        obtain ⟨w, hw, rfl⟩ := ih _ h
        exact ⟨w, .call ⟨c, rfl⟩ hw, rfl⟩
  · rintro ⟨w, h, rfl⟩
    generalize hu : s.world = u at h
    induction h generalizing s with
    | ret a u =>
      subst hu
      exact .ret a s
    | raise e u =>
      subst hu
      exact .raise e s
    | @call op next u u' w r o ha _ ih =>
      subst hu
      obtain ⟨c, hc⟩ := ha
      have hact : Steady sv fetched (.repository op) s r { s with world := u' } :=
        ⟨c, by simp only [driveEffect, repositoryEffect, hc]⟩
      exact .call hact (ih rfl)

theorem ends_onDocuments_bind {p : Stage α} {k : α → DriveStage β} :
    Ends (Steady sv fetched) (onDocuments p >>= k) s o t ↔
      (∃ e w, Ends (Acts sv) p s.world (.error e) w ∧ o = .error e ∧
          t = { s with world := w }) ∨
        ∃ a w, Ends (Acts sv) p s.world (.ok a) w ∧
          Ends (Steady sv fetched) (k a) { s with world := w } o t := by
  rw [ends_bind]
  simp only [ends_onDocuments]
  constructor
  · rintro (⟨e, ⟨w, hw, rfl⟩, rfl⟩ | ⟨a, u, ⟨w, hw, rfl⟩, h⟩)
    · exact .inl ⟨e, w, hw, rfl, rfl⟩
    · exact .inr ⟨a, w, hw, h⟩
  · rintro (⟨e, w, hw, rfl, rfl⟩ | ⟨a, w, hw, h⟩)
    · exact .inl ⟨e, ⟨w, hw, rfl⟩, rfl⟩
    · exact .inr ⟨a, _, ⟨w, hw, rfl⟩, h⟩

theorem ask_repository (op : Op) : ask (.repository op) = onDocuments (send op) := by
  show Program.call _ _ = Program.call _ _
  congr
  funext r
  cases r <;> rfl

/-- An operation with one answer and one effect, whatever the storage does. -/
theorem ends_ask {op : DriveOp} {a : op.Resp} {u : DriveState}
    (h : ∀ c, driveEffect sv fetched { storage := c, outage := none } op s = (.ok a, u))
    (o : Except Exn op.Resp) (t : DriveState) :
    Ends (Steady sv fetched) (ask op) s o t ↔ o = .ok a ∧ t = u := by
  rw [ask, ends_perform]
  constructor
  · rintro ⟨c, hc⟩
    rw [h] at hc
    exact ⟨(Prod.mk.inj hc).1.symm, (Prod.mk.inj hc).2.symm⟩
  · rintro ⟨rfl, rfl⟩
    exact ⟨.fine, h _⟩

theorem ends_getFile_bind {k : Option DriveFileRow → DriveStage β} :
    Ends (Steady sv fetched) (ask (.getFile f) >>= k) s o t ↔
      Ends (Steady sv fetched) (k (s.file f)) s o t :=
  ends_bind_exact (ends_ask fun _ => rfl)

theorem ends_getVersions_bind {k : List FileVersion → DriveStage β} :
    Ends (Steady sv fetched) (ask (.getVersions f) >>= k) s o t ↔
      Ends (Steady sv fetched) (k (s.versions f)) s o t :=
  ends_bind_exact (ends_ask fun _ => rfl)

theorem ends_getDocument_bind {d : DocumentId} {k : Option Document → DriveStage β} :
    Ends (Steady sv fetched) (ask (.repository (.getById d)) >>= k) s o t ↔
      Ends (Steady sv fetched) (k (s.doc d)) s o t :=
  ends_bind_exact (ends_ask fun _ => rfl)

theorem ends_fetchBytes_bind {item : DriveFile} {k : Bytes → DriveStage β} :
    Ends (Steady sv fetched) (ask (.fetchBytes item) >>= k) s o t ↔
      (∃ e, fetched = .error e ∧ o = .error e ∧ t = s) ∨
        ∃ data, fetched = .ok data ∧ Ends (Steady sv fetched) (k data) s o t := by
  rw [ask, ends_bind]
  simp only [ends_perform]
  constructor
  · rintro (⟨e, ⟨c, hc⟩, rfl⟩ | ⟨data, v, ⟨c, hc⟩, hk⟩)
    · obtain ⟨he, rfl⟩ := Prod.mk.inj hc
      exact .inl ⟨e, he, rfl, rfl⟩
    · obtain ⟨hd, rfl⟩ := Prod.mk.inj hc
      exact .inr ⟨data, hd, hk⟩
  · rintro (⟨e, he, rfl, rfl⟩ | ⟨data, hd, hk⟩)
    · exact .inl ⟨e, ⟨.fine, congrArg (·, t) he⟩, rfl⟩
    · exact .inr ⟨data, s, ⟨.fine, congrArg (·, s) hd⟩, hk⟩

/-- An audit write leaves the rows of the documents, and never stops a sync. -/
theorem ends_auditRow_bind {d : DocumentId} {event : AuditEventType} {again : Bool}
    {k : Unit → DriveStage β}
    (h : Ends (Steady sv fetched) (ask (.repository (.audit d event again)) >>= k) s o t) :
    ∃ a, Ends (Steady sv fetched) (k ()) { s with world := { s.world with audit := a } } o t := by
  rw [ask_repository] at h
  rcases ends_onDocuments_bind.mp h with ⟨e, w, he, -⟩ | ⟨_, w, hw, h⟩
  · cases (acts_audit (ends_perform.mp he)).1
  · obtain ⟨-, a, rfl⟩ := acts_audit (ends_perform.mp hw)
    exact ⟨a, h⟩

end Rules

namespace DriveSyncService

variable {sv : Services} {cfg : DriveConfig} {fetched : Except Exn Bytes} {s t : DriveState}
  {o : Except Exn Unit} {f : FileId} {row : DriveFileRow} {id : DocumentId} {item : DriveFile}
  {tier : Classification} {folderId : FolderId}

/-- The row as `record` writes it. -/
def recorded (s : DriveState) (item : DriveFile) (state : DriveFileState)
    (tier : Classification) (folderId : FolderId) (documentId : Option DocumentId)
    (skipReason : Option String) : DriveFileRow :=
  { documentId := documentId.or ((s.file item.fileId).bind DriveFileRow.documentId),
    seen := item, folderId := some folderId, classification := some tier, state, skipReason }

theorem ends_record {state : DriveFileState} {documentId : Option DocumentId}
    {reason : Option String} (o : Except Exn Unit) (t : DriveState) :
    Ends (Steady sv fetched) (record item state tier folderId documentId reason) s o t ↔
      o = .ok () ∧
        t = s.putFile item.fileId (recorded s item state tier folderId documentId reason) := by
  have hput : ∀ c : Luck, driveEffect sv fetched { storage := c, outage := none }
      (.putFile item.fileId (recorded s item state tier folderId documentId reason)) s =
        (.ok (), s.putFile item.fileId
          (recorded s item state tier folderId documentId reason)) := fun _ => rfl
  unfold record
  rw [ends_getFile_bind]
  exact ends_ask hput o t

def lastRemoved (versions : List FileVersion) : Option FileVersion :=
  (versions.filter (·.state = .removed)).getLast?

/-- The document that comes back with its file. -/
def returning (versions : List FileVersion) (row : DriveFileRow) : Option DocumentId :=
  ((lastRemoved versions).map FileVersion.documentId).or row.documentId

def returnedVersions (versions : List FileVersion) : List FileVersion :=
  match lastRemoved versions with
  | none => versions
  | some v => versions.map (FileVersion.marked v.documentId .pending)

theorem returnedVersions_none {versions : List FileVersion} (h : lastRemoved versions = none) :
    returnedVersions versions = versions := by
  rw [returnedVersions, h]

theorem returnedVersions_some {versions : List FileVersion} {v : FileVersion}
    (h : lastRemoved versions = some v) :
    returnedVersions versions = versions.map (FileVersion.marked v.documentId .pending) := by
  rw [returnedVersions, h]

/-- The rows of documents change as `g` says, and nothing else but the audit log does. -/
structure Rewrites (s t : DriveState) (g : DocumentId → Document → Document) : Prop where
  files : t.files = s.files
  versions : t.versions = s.versions
  objects : t.world.objects = s.world.objects
  docs : ∀ d, t.doc d = (s.doc d).map (g d)

theorem Rewrites.refl (s : DriveState) : Rewrites s s fun _ r => r :=
  ⟨rfl, rfl, rfl, fun d => by simp⟩

theorem Rewrites.trans {u : DriveState} {g h : DocumentId → Document → Document}
    (hst : Rewrites s t g) (htu : Rewrites t u h) : Rewrites s u fun d r => h d (g d r) where
  files := htu.files.trans hst.files
  versions := htu.versions.trans hst.versions
  objects := htu.objects.trans hst.objects
  docs d := by rw [htu.docs, hst.docs, Option.map_map]; rfl

theorem Rewrites.congr {g h : DocumentId → Document → Document} (hst : Rewrites s t g)
    (heq : ∀ d r, s.doc d = some r → g d r = h d r) : Rewrites s t h where
  files := hst.files
  versions := hst.versions
  objects := hst.objects
  docs d := by
    rw [hst.docs]
    cases hd : s.doc d with
    | none => rfl
    | some r => rw [Option.map_some, Option.map_some, heq d r hd]

/-- What an audit write adds does not count. -/
theorem Rewrites.audited {g : DocumentId → Document → Document}
    {a : List (DocumentId × AuditEventType)} (h : Rewrites s t g) :
    Rewrites s { t with world := { t.world with audit := a } } g :=
  ⟨h.files, h.versions, h.objects, h.docs⟩

theorem rewrites_restore (s : DriveState) (id : DocumentId) :
    Rewrites s { s with world := (s.world.restore id).2 }
      fun d r => if d = id then r.shown else r := by
  obtain ⟨docs, hdocs⟩ := restore_snd (w := s.world) id
  refine ⟨rfl, rfl, ?_, fun d => restore_docs id d⟩
  show (s.world.restore id).2.objects = _
  rw [hdocs]

theorem rewrites_setClassification (s : DriveState) (id : DocumentId) (tier : Classification) :
    Rewrites s { s with world := s.world.setClassification id tier }
      fun d r => if d = id then { r with classification := some tier } else r := by
  obtain ⟨docs, hdocs⟩ := setClassification_eq s.world id tier
  refine ⟨rfl, rfl, ?_, fun d => setClassification_docs id d tier⟩
  show (s.world.setClassification id tier).objects = _
  rw [hdocs]

theorem restore_spec (h : Ends (Steady sv fetched) (restore f row) s o t) :
    o = .ok () ∧ ∃ u, Rewrites s u (fun d r =>
        if returning (s.versions f) row = some d then r.shown else r) ∧
      t = u.putVersions f (returnedVersions (s.versions f)) := by
  unfold restore at h
  rw [ends_getVersions_bind] at h
  dsimp only at h
  have hlast : ((s.versions f).filter (fun v => decide (v.state = .removed))).getLast? =
    lastRemoved (s.versions f) := rfl
  have hret : ((lastRemoved (s.versions f)).map FileVersion.documentId).or row.documentId =
    returning (s.versions f) row := rfl
  rw [hlast, hret] at h
  cases hd : returning (s.versions f) row with
  | none =>
    rw [hd] at h
    obtain ⟨rfl, rfl⟩ := ends_ret.mp h
    have hnone : lastRemoved (t.versions f) = none := by
      simp only [returning, Option.or_eq_none_iff, Option.map_eq_none_iff] at hd
      exact hd.1
    refine ⟨rfl, t, by simpa using Rewrites.refl t, ?_⟩
    rw [returnedVersions_none hnone, DriveState.putVersions_self]
  | some d =>
    rw [hd] at h
    have hres : ∀ c : Luck, driveEffect sv fetched { storage := c, outage := none }
        (.repository (.restore d)) s =
          (.ok (s.world.restore d).1, { s with world := (s.world.restore d).2 }) := fun _ => rfl
    have h' := (ends_bind_exact (ends_ask hres)).mp h
    have hmark : ∀ {v : DriveState}, Rewrites s v (fun e r => if d = e then r.shown else r) →
        Ends (Steady sv fetched)
          (if (lastRemoved (s.versions f)).isSome = true then
            ask (.setVersionState f d .pending) else pure ()) v o t →
        o = .ok () ∧ ∃ u, Rewrites s u (fun e r =>
          if some d = some e then r.shown else r) ∧
            t = u.putVersions f (returnedVersions (s.versions f)) := by
      intro v hv hk
      have hg : Rewrites s v (fun e r => if some d = some e then r.shown else r) := by
        simpa using hv
      cases hl : lastRemoved (s.versions f) with
      | none =>
        rw [hl] at hk
        obtain ⟨rfl, rfl⟩ := ends_ret.mp hk
        refine ⟨rfl, t, hg, ?_⟩
        rw [returnedVersions_none hl, ← hv.versions, DriveState.putVersions_self]
      | some last =>
        rw [hl] at hk
        have hid : last.documentId = d := by
          simpa [returning, hl] using hd
        have hset : ∀ c : Luck, driveEffect sv fetched { storage := c, outage := none }
            (.setVersionState f d .pending) v =
              (.ok (), v.putVersions f ((v.versions f).map (FileVersion.marked d .pending))) :=
          fun _ => rfl
        obtain ⟨rfl, rfl⟩ := (ends_ask hset o t).mp hk
        refine ⟨rfl, v, hg, ?_⟩
        rw [returnedVersions_some hl, hid, hv.versions]
    have hback : Rewrites s { s with world := (s.world.restore d).2 }
        (fun e r => if d = e then r.shown else r) := by
      simpa [eq_comm] using rewrites_restore s d
    split at h'
    · obtain ⟨a, ha⟩ := ends_auditRow_bind h'
      exact hmark hback.audited ha
    · exact hmark hback h'

/-- A row that is not erased takes the tier. -/
def retiered (tier : Classification) (r : Document) : Document :=
  if r.purgedAt = none then { r with classification := some tier } else r

theorem retiered_of_kept {tier : Classification} {r : Document}
    (h : r.purgedAt ≠ none ∨ r.classification = some tier) : retiered tier r = r := by
  unfold retiered
  split
  · rename_i hp
    have hc := h.resolve_left (not_not.mpr hp)
    rw [← hc]
  · rfl

theorem reclassifyAll_spec (ids : List DocumentId)
    (h : Ends (Steady sv fetched) (reclassifyAll tier ids) s o t) :
    o = .ok () ∧ Rewrites s t fun d r => if d ∈ ids then retiered tier r else r := by
  induction ids generalizing s with
  | nil =>
    obtain ⟨rfl, rfl⟩ := ends_ret.mp h
    exact ⟨rfl, by simpa using Rewrites.refl t⟩
  | cons d ids ih =>
    rw [reclassifyAll, ends_getDocument_bind] at h
    -- the rest of the list after a document that is left as it is
    have hleft : Ends (Steady sv fetched) (reclassifyAll tier ids) s o t →
        (∀ r, s.doc d = some r → retiered tier r = r) →
        o = .ok () ∧ Rewrites s t fun e r => if e ∈ d :: ids then retiered tier r else r := by
      intro hk hsame
      obtain ⟨ho, hr⟩ := ih hk
      refine ⟨ho, hr.congr fun e r he => ?_⟩
      by_cases hed : e = d
      · subst hed
        simp [hsame r he]
      · simp [hed]
    cases hd : s.doc d with
    | none =>
      rw [hd] at h
      exact hleft h fun r hr => by rw [hd] at hr; cases hr
    | some doc =>
      rw [hd] at h
      have hone : ∀ r, s.doc d = some r → r = doc := fun r hr => by
        rw [hd] at hr
        exact (Option.some.inj hr).symm
      dsimp only at h
      split at h
      · rename_i hkept
        refine hleft h fun r hr => ?_
        rw [hone r hr]
        exact retiered_of_kept hkept
      · rename_i hkept
        obtain ⟨hp, hc⟩ := not_or.mp hkept
        have hset : ∀ c : Luck, driveEffect sv fetched { storage := c, outage := none }
            (.repository (.setClassification d tier)) s =
              (.ok (), { s with world := s.world.setClassification d tier }) := fun _ => rfl
        obtain ⟨a, ha⟩ := ends_auditRow_bind ((ends_bind_exact (ends_ask hset)).mp h)
        obtain ⟨ho, hr⟩ := ih ha
        refine ⟨ho, ((rewrites_setClassification s d tier).audited.trans hr).congr ?_⟩
        intro e r he
        by_cases hed : e = d
        · subst hed
          have hp' : r.purgedAt = none := by
            rw [hone r he]
            exact not_not.mp hp
          simp [retiered, hp']
        · simp [hed]

/-- The document that comes back, if the file had been removed. -/
def comesBack (versions : List FileVersion) (row : DriveFileRow) : Option DocumentId :=
  if row.state = .removed then returning versions row else none

def afterReturn (versions : List FileVersion) (row : DriveFileRow) : List FileVersion :=
  if row.state = .removed then returnedVersions versions else versions

/-- A row of the documents after its file was found unchanged, in the same place or in
another, or back again. -/
def revisited (versions : List FileVersion) (row : DriveFileRow) (tier : Classification)
    (d : DocumentId) (r : Document) : Document :=
  let r' := if comesBack versions row = some d then r.shown else r
  if row.classification ≠ some tier ∧ d ∈ targets (afterReturn versions row) row then
    retiered tier r'
  else r'

theorem unchangedContent_spec
    (h : Ends (Steady sv fetched) (unchangedContent row item tier folderId) s o t) :
    o = .ok () ∧ ∃ u, Rewrites s u (revisited (s.versions item.fileId) row tier) ∧
      t = (u.putVersions item.fileId (afterReturn (s.versions item.fileId) row)).putFile
        item.fileId (recorded s item .imported tier folderId none none) := by
  unfold unchangedContent at h
  have hrest : ∀ {u : DriveState}, Rewrites s u (fun d r =>
        if comesBack (s.versions item.fileId) row = some d then r.shown else r) →
      Ends (Steady sv fetched)
        (if row.classification ≠ some tier then do
            reclassify item.fileId row tier
            record item .imported tier folderId none none
          else record item .imported tier folderId none none)
        (u.putVersions item.fileId (afterReturn (s.versions item.fileId) row)) o t →
      o = .ok () ∧ ∃ u, Rewrites s u (revisited (s.versions item.fileId) row tier) ∧
        t = (u.putVersions item.fileId (afterReturn (s.versions item.fileId) row)).putFile
          item.fileId (recorded s item .imported tier folderId none none) := by
    intro u hu hk
    have hend : ∀ {v : DriveState}, v.files = s.files →
        Ends (Steady sv fetched) (record item .imported tier folderId none none) v o t →
        o = .ok () ∧ t = v.putFile item.fileId
          (recorded s item .imported tier folderId none none) := by
      intro v hv hr
      have hrec := (ends_record o t).mp hr
      rw [recorded, DriveState.file, hv] at hrec
      exact hrec
    split at hk
    · rename_i hmoved
      rcases ends_bind.mp hk with ⟨e, he, -⟩ | ⟨_, v, hv, hk⟩
      · rw [reclassify, ends_getVersions_bind] at he
        cases (reclassifyAll_spec _ he).1
      · rw [reclassify, ends_getVersions_bind, DriveState.putVersions_versions] at hv
        obtain ⟨-, hall⟩ := reclassifyAll_spec _ hv
        obtain ⟨ho, ht⟩ := hend (hall.files.trans hu.files) hk
        have hput : v = ({ v with versions := u.versions } : DriveState).putVersions item.fileId
            (afterReturn (s.versions item.fileId) row) := by
          have hversions := hall.versions
          cases v
          simp only [DriveState.putVersions] at hversions ⊢
          rw [hversions]
        have hboth : Rewrites u { v with versions := u.versions } fun d r =>
            if d ∈ targets (afterReturn (s.versions item.fileId) row) row then retiered tier r
            else r := ⟨hall.files, rfl, hall.objects, hall.docs⟩
        refine ⟨ho, _, (hu.trans hboth).congr fun d r _ => ?_, hput ▸ ht⟩
        simp only [revisited, hmoved, ne_eq, not_false_iff, true_and]
    · rename_i hmoved
      have hfiles : (u.putVersions item.fileId
          (afterReturn (s.versions item.fileId) row)).files = s.files := hu.files
      obtain ⟨ho, ht⟩ := hend hfiles hk
      refine ⟨ho, u, hu.congr fun d r _ => ?_, ht⟩
      simp only [revisited, not_not.mp hmoved, ne_eq, not_true, false_and, if_false]
  dsimp only at h
  split at h
  · rename_i hremoved
    rcases ends_bind.mp h with ⟨e, he, -⟩ | ⟨_, v, hv, h⟩
    · cases (restore_spec he).1
    · obtain ⟨-, u, hu, rfl⟩ := restore_spec hv
      refine hrest (u := u) (hu.congr fun d r _ => ?_) ?_
      · rw [comesBack, if_pos hremoved]
      · rw [afterReturn, if_pos hremoved]
        exact h
  · rename_i hremoved
    refine hrest (u := s) ((Rewrites.refl s).congr fun d r _ => ?_) ?_
    · rw [comesBack, if_neg hremoved]
      rfl
    · rw [afterReturn, if_neg hremoved, DriveState.putVersions_self]
      exact h

/-- The row of a file whose new content is a new version of it. -/
def edited (row : Option DriveFileRow) : Option DriveFileRow :=
  (known row).filter (·.state = .imported)

def inherited (s : DriveState) (row : DriveFileRow) (tier : Classification) : Classification :=
  if row.classification ≠ some tier then tier
  else
    match (row.documentId.bind s.doc).bind Document.classification with
    | none => tier
    | some earlier => if isStricter (some earlier) (some tier) then earlier else tier

/-- The tier that new content is imported at. -/
def importTier (s : DriveState) (existing : Option DriveFileRow) (tier : Classification) :
    Classification :=
  match existing with
  | none => tier
  | some row => inherited s row tier

theorem ends_inheritedTier (row : DriveFileRow) (o : Except Exn Classification) (t : DriveState) :
    Ends (Steady sv fetched) (inheritedTier row tier) s o t ↔
      o = .ok (inherited s row tier) ∧ t = s := by
  unfold inheritedTier inherited
  split
  · exact ends_ret
  · cases row.documentId with
    | none => exact ends_ret
    | some d =>
      rw [ends_getDocument_bind]
      simp only [Option.bind_some]
      cases (s.doc d).bind Document.classification with
      | none => exact ends_ret
      | some earlier => exact ends_ret

/-- The document an import makes. -/
def importedDocument (cfg : DriveConfig) (id : DocumentId) (item : DriveFile)
    (tier : Classification) (data : Bytes) (mimeType : String) : Document :=
  UploadService.received id (storedName item) data (request tier (cfg.ownerOf item.ownerEmail))
    mimeType

/-- What the sync of one file leaves. -/
inductive Synced (cfg : DriveConfig) (id : DocumentId) (fetched : Except Exn Bytes)
    (item : DriveFile) (tier : Classification) (folderId : FolderId) (s : DriveState) :
    DriveState → Prop
  | unchanged (row : DriveFileRow) (u : DriveState) (hk : known (s.file item.fileId) = some row)
      (hc : contentChanged row item = false)
      (hu : Rewrites s u (revisited (s.versions item.fileId) row tier)) :
      Synced cfg id fetched item tier folderId s
        ((u.putVersions item.fileId (afterReturn (s.versions item.fileId) row)).putFile
          item.fileId (recorded s item .imported tier folderId none none))
  | passedOver (state : DriveFileState) (reason : String)
      (hn : ∀ row, known (s.file item.fileId) = some row → contentChanged row item = true)
      (hs : state = .skipped ∨ state = .failed) :
      Synced cfg id fetched item tier folderId s
        (s.putFile item.fileId (recorded s item state tier folderId none (some reason)))
  | imported (data : Bytes) (mimeType : String) (w : World)
      (hn : ∀ row, known (s.file item.fileId) = some row → contentChanged row item = true)
      (hd : fetched = .ok data) (hm : cfg.detectFormat data = some mimeType)
      (hobjects : w.objects = (s.world.setObject .quarantine (buildQuarantineKey id mimeType)
        (some data)).objects)
      (hdocs : ∀ d, w.doc d = if d = id then
          some (importedDocument cfg id item
            (importTier s (edited (s.file item.fileId)) tier) data mimeType)
        else s.doc d) :
      Synced cfg id fetched item tier folderId s
        ((({ s with world := w } : DriveState).putFile item.fileId
            (recorded s item .imported tier folderId (some id) none)).putVersions item.fileId
          (s.versions item.fileId ++ [{ documentId := id, state := .pending }]))

/-- An upload lands whole or, where the storage fails, not at all. -/
theorem receive_spec {w w' : World} {filename mimeType : String} {data : Bytes}
    {r : UploadRequest} {o : Except Exn UploadResponse} (hfresh : w.doc id = none)
    (h : Ends (Acts sv) (UploadService.receive id filename data r mimeType) w o w') :
    (∃ e, o = .error e ∧ w' = w) ∨
      ∃ response, o = .ok response ∧ response.documentId = id ∧
        w'.objects =
          (w.setObject .quarantine (buildQuarantineKey id mimeType) (some data)).objects ∧
        ∀ d, w'.doc d =
          if d = id then some (UploadService.received id filename data r mimeType)
          else w.doc d := by
  unfold UploadService.receive at h
  have hput : ∀ {x : Except Exn Unit} {u : World},
      Acts sv (.putObject .quarantine (buildQuarantineKey id mimeType) data) w x u →
      (∃ e, x = .error e ∧ u = w) ∨
        x = .ok () ∧ u = w.setObject .quarantine (buildQuarantineKey id mimeType) (some data) := by
    rintro x u ⟨c, hc⟩
    obtain ⟨rfl, rfl⟩ := Prod.mk.inj hc
    cases c with
    | fails m => exact .inl ⟨_, rfl, rfl⟩
    | fine | silent => exact .inr ⟨rfl, rfl⟩
  rcases ends_send_bind.mp h with ⟨e, he, rfl⟩ | ⟨_, u, hu, h⟩
  · rcases hput he with ⟨e', -, rfl⟩ | ⟨he', -⟩
    · exact .inl ⟨e, rfl, rfl⟩
    · cases he'
  · rcases hput hu with ⟨e', he', -⟩ | ⟨-, rfl⟩
    · cases he'
    · have hfree : (w.setObject .quarantine (buildQuarantineKey id mimeType)
          (some data)).documents.get
            (UploadService.received id filename data r mimeType).created.id = none := hfresh
      obtain ⟨t, ht⟩ := Documents.insert_accepted hfree rfl nofun
      rcases ends_send_bind.mp h with ⟨e, he, -⟩ | ⟨_, v, hv, h⟩
      · rcases acts_create.mp he with ⟨hn, -, -⟩ | ⟨t', -, hok, -⟩
        · rw [ht] at hn
          cases hn
        · cases hok
      · rcases acts_create.mp hv with ⟨hn, -, -⟩ | ⟨t', ht', -, rfl⟩
        · rw [ht] at hn
          cases hn
        · obtain ⟨a, ha⟩ := ends_audit_bind (ends_enqueue_bind.mp h)
          obtain ⟨rfl, rfl⟩ := ends_ret.mp ha
          refine .inr ⟨_, rfl, rfl, rfl, fun d => ?_⟩
          show t'.get d = _
          rw [Documents.insert_get ht']
          by_cases hd : d = id
          · subst hd
            have hnone : (w.setObject .quarantine (buildQuarantineKey d mimeType)
              (some data)).documents.get d = none := hfresh
            have hself : (UploadService.received d filename data r mimeType).created.id = d := rfl
            rw [hnone, Option.none_or, if_pos hself, if_pos rfl]
            rfl
          · have hne : ¬ (UploadService.received id filename data r mimeType).created.id = d :=
              fun he => hd he.symm
            rw [if_neg hne, if_neg hd, Option.or_none]
            rfl

theorem importBytes_spec {data : Bytes} {mimeType : String} (hfresh : s.doc id = none)
    (hn : ∀ row, known (s.file item.fileId) = some row → contentChanged row item = true)
    (hd : fetched = .ok data) (hm : cfg.detectFormat data = some mimeType)
    (h : Ends (Steady sv fetched) (importBytes cfg id item tier folderId
      (edited (s.file item.fileId)) data mimeType) s o t) :
    (∃ e, o = .error e ∧ t = s) ∨
      o = .ok () ∧ Synced cfg id fetched item tier folderId s t := by
  have htier : Ends (Steady sv fetched) (do
        let response ← onDocuments (UploadService.receive id (storedName item) data
          (request (importTier s (edited (s.file item.fileId)) tier)
            (cfg.ownerOf item.ownerEmail)) mimeType)
        record item .imported tier folderId (some response.documentId) none
        ask (.addVersion item.fileId
          { documentId := response.documentId, state := .pending })) s o t := by
    unfold importBytes importTier at *
    cases hrow : edited (s.file item.fileId) with
    | none =>
      rw [hrow] at h
      exact h
    | some row =>
      rw [hrow] at h
      exact (ends_bind_exact (ends_inheritedTier row)).mp h
  rcases ends_onDocuments_bind.mp htier with ⟨e, w, he, rfl, rfl⟩ | ⟨response, w, hw, hk⟩
  · rcases receive_spec hfresh he with ⟨e', -, rfl⟩ | ⟨response, hok, -⟩
    · exact .inl ⟨e, rfl, rfl⟩
    · cases hok
  · rcases receive_spec hfresh hw with ⟨e', he', -⟩ | ⟨response', hok, hid, hobjects, hdocs⟩
    · cases he'
    · cases hok
      rw [hid] at hk
      have hadd := (ends_bind_exact ends_record).mp hk
      obtain ⟨rfl, rfl⟩ := (ends_ask (fun _ => rfl) _ _).mp hadd
      exact .inr ⟨rfl, .imported data mimeType w hn hd hm hobjects hdocs⟩

theorem importContent_spec (hfresh : s.doc id = none)
    (hn : ∀ row, known (s.file item.fileId) = some row → contentChanged row item = true)
    (h : Ends (Steady sv fetched) (importContent cfg id item tier folderId
      (edited (s.file item.fileId))) s o t) :
    (∃ e, o = .error e ∧ t = s) ∨
      o = .ok () ∧ Synced cfg id fetched item tier folderId s t := by
  have hskip : ∀ (reason : String) {o : Except Exn Unit} {t : DriveState},
      Ends (Steady sv fetched) (record item .skipped tier folderId none (some reason)) s o t →
      (∃ e, o = .error e ∧ t = s) ∨
        o = .ok () ∧ Synced cfg id fetched item tier folderId s t := by
    intro reason o t hr
    obtain ⟨rfl, rfl⟩ := (ends_record o t).mp hr
    exact .inr ⟨rfl, .passedOver .skipped reason hn (.inl rfl)⟩
  unfold importContent at h
  dsimp only at h
  split at h
  · exact hskip _ h
  · split at h
    · exact hskip _ h
    · rcases ends_fetchBytes_bind.mp h with ⟨e, -, rfl, rfl⟩ | ⟨data, hd, h⟩
      · exact .inl ⟨e, rfl, rfl⟩
      · split at h
        · exact hskip _ h
        · split at h
          · exact hskip _ h
          · rename_i mimeType hm
            exact importBytes_spec hfresh hn hd hm h

theorem syncOne_spec (hfresh : s.doc id = none)
    (h : Ends (Steady sv fetched) (syncOne cfg id item tier folderId) s o t) :
    ((∃ e, o = .error e ∧ t = s) ∧
        ∀ row, known (s.file item.fileId) = some row → contentChanged row item = true) ∨
      o = .ok () ∧ Synced cfg id fetched item tier folderId s t := by
  unfold syncOne at h
  rw [ends_getFile_bind] at h
  have hchanged : (∀ row, known (s.file item.fileId) = some row →
        contentChanged row item = true) →
      Ends (Steady sv fetched) (importContent cfg id item tier folderId
        (edited (s.file item.fileId))) s o t →
      ((∃ e, o = .error e ∧ t = s) ∧
          ∀ row, known (s.file item.fileId) = some row → contentChanged row item = true) ∨
        o = .ok () ∧ Synced cfg id fetched item tier folderId s t := by
    intro hn hi
    rcases importContent_spec hfresh hn hi with hfail | hdone
    · exact .inl ⟨hfail, hn⟩
    · exact .inr hdone
  cases hrow : known (s.file item.fileId) with
  | none =>
    have hedited : edited (s.file item.fileId) = none := by rw [edited, hrow]; rfl
    rw [hrow] at h
    rw [hrow, hedited] at hchanged
    exact hchanged (fun row hr => by cases hr) h
  | some row =>
    have hedited : edited (s.file item.fileId) =
        if row.state = .imported then some row else none := by
      rw [edited, hrow, Option.filter_some]
      simp
    rw [hrow] at h
    dsimp only at h
    split at h
    · rename_i hc
      rw [hrow, hedited] at hchanged
      exact hchanged (fun r hr => by rw [← Option.some.inj hr]; exact hc) h
    · rename_i hc
      obtain ⟨rfl, u, hu, rfl⟩ := unchangedContent_spec h
      exact .inr ⟨rfl, .unchanged row u hrow (Bool.eq_false_iff.mpr hc) hu⟩

theorem syncItem_spec (hfresh : s.doc id = none)
    (h : Ends (Steady sv fetched) (syncItem cfg id item tier folderId) s o t) :
    o = .ok () ∧ Synced cfg id fetched item tier folderId s t := by
  obtain ⟨r, u, hu, hk⟩ := ends_attempt_bind.mp h
  rcases syncOne_spec hfresh hu with ⟨⟨e, rfl, rfl⟩, hn⟩ | ⟨rfl, hdone⟩
  · obtain ⟨rfl, rfl⟩ := (ends_record o t).mp hk
    exact ⟨rfl, .passedOver .failed _ hn (.inr rfl)⟩
  · obtain ⟨rfl, rfl⟩ := ends_ret.mp hk
    exact ⟨rfl, hdone⟩

end DriveSyncService

end KnowledgeBase
