import KnowledgeBase.FileSteps

/-! The sync of one file with anything going wrong in it: the database and the storage may
fail at every operation, and the process may die between any two. What is asked here is
whether a document that was created is named by a version of its file. -/

namespace KnowledgeBase

open Program DriveSyncService

/-- An erased document counts as deleted. -/
def Mortal (d : Document) : Prop := d.purgedAt ≠ none → d.deletedAt ≠ none

/-- No row is lost, and none comes to be erased but not deleted. -/
structure Lasting (w w' : World) : Prop where
  kept : ∀ d r, w.doc d = some r → ∃ r', w'.doc d = some r' ∧ (Mortal r → Mortal r')
  born : ∀ d r', w.doc d = none → w'.doc d = some r' → Mortal r'

namespace Lasting

variable {w u w' : World}

theorem of_same (h : ∀ d, w'.doc d = w.doc d) : Lasting w w' where
  kept d r hr := ⟨r, by rw [h d]; exact hr, fun hm => hm⟩
  born d r' hn hr := by
    rw [h d, hn] at hr
    cases hr

theorem refl (w : World) : Lasting w w := of_same fun _ => rfl

theorem of_relate {R : Document → Document → Prop} (hR : ∀ r r', R r r' → Mortal r → Mortal r')
    (h : RowsRelate R w w') : Lasting w w' where
  kept d r hr := by
    obtain ⟨r', hr', hrr⟩ := (h d).2 r hr
    exact ⟨r', hr', hR r r' hrr⟩
  born d r' hn hr := by
    rw [(h d).1 hn] at hr
    cases hr

/-- Every row is rewritten in its own way. -/
theorem of_map {g : DocumentId → Document → Document} (hg : ∀ d r, Mortal r → Mortal (g d r))
    (h : ∀ d, w'.doc d = (w.doc d).map (g d)) : Lasting w w' where
  kept d r hr := ⟨g d r, by rw [h d, hr]; rfl, hg d r⟩
  born d r' hn hr := by
    rw [h d, hn] at hr
    cases hr

theorem trans (h : Lasting w u) (h' : Lasting u w') : Lasting w w' where
  kept d r hr := by
    obtain ⟨q, hq, hrq⟩ := h.kept d r hr
    obtain ⟨r', hr', hqr⟩ := h'.kept d q hq
    exact ⟨r', hr', fun hm => hqr (hrq hm)⟩
  born d r' hn hr := by
    cases hq : u.doc d with
    | none => exact h'.born d r' hq hr
    | some q =>
      obtain ⟨r'', hr'', hqr⟩ := h'.kept d q hq
      rw [hr] at hr''
      obtain rfl := Option.some.inj hr''
      exact hqr (h.born d q hn hq)

theorem doc_ne_none (h : Lasting w w') {d : DocumentId} (hd : w.doc d ≠ none) :
    w'.doc d ≠ none := by
  obtain ⟨r, hr⟩ := Option.ne_none_iff_exists'.mp hd
  obtain ⟨r', hr', -⟩ := h.kept d r hr
  rw [hr']
  exact Option.some_ne_none r'

end Lasting

namespace Mortal

variable {d : Document}

theorem hidden (h : Mortal d) (now : Nat) : Mortal (d.hidden now) := by
  intro hp
  rw [Document.hidden_purgedAt] at hp
  have hd : d.deletedAt ≠ none := h hp
  have hsame : d.hidden now = d := if_neg fun h' => hd h'.1
  rw [hsame]
  exact hd

theorem shown (h : Mortal d) : Mortal d.shown := by
  intro hp
  rw [Document.shown_purgedAt] at hp
  have hsame : d.shown = d := if_neg fun h' => hp h'.2
  rw [hsame]
  exact h hp

end Mortal

section Operations

variable {sv : Services} {w w' : World}

theorem lasting_of_written {t : Documents} {doc : Document}
    (h : w.documents.updateDocument doc = some t) : Lasting w { w with documents := t } := by
  have hother : ∀ d, d ≠ doc.id → ({ w with documents := t } : World).doc d = w.doc d :=
    fun d hd => Documents.updateDocument_get_other h hd
  refine ⟨fun d r hr => ?_, fun d r' hn hr => ?_⟩
  · by_cases hd : d = doc.id
    · subst hd
      exact ⟨doc.writeBack r, Documents.updateDocument_get h hr, fun hm => hm⟩
    · exact ⟨r, by rw [hother d hd]; exact hr, fun hm => hm⟩
  · by_cases hd : d = doc.id
    · subst hd
      have hn' : w.documents.get doc.id = none := hn
      rw [Documents.updateDocument, hn', Option.isSome_none, if_neg Bool.false_ne_true] at h
      have hr' : t.get doc.created.id = some r' := hr
      rw [Documents.insert_get_eq h hr']
      exact fun hp => absurd rfl hp
    · rw [hother d hd, hn] at hr
      cases hr

theorem lasting_of_created {t : Documents} {doc : Document}
    (h : w.documents.insert doc.created = some t) : Lasting w { w with documents := t } := by
  have hget : ∀ d, ({ w with documents := t } : World).doc d =
      (w.doc d).or (if doc.id = d then some doc.created else none) :=
    fun d => Documents.insert_get h d
  refine ⟨fun d r hr => ⟨r, by rw [hget, hr, Option.some_or], fun hm => hm⟩,
    fun d r' hn hr => ?_⟩
  rw [hget, hn, Option.none_or] at hr
  split at hr
  · obtain rfl := Option.some.inj hr
    exact fun hp => absurd rfl hp
  · cases hr

/-- No operation erases a row without deleting it. -/
theorem lasting_of_effect (sv : Services) (c : Luck) (op : Op) (w : World) :
    Lasting w (effect sv c op w).2 := by
  by_cases hrow : op.row = none
  · exact .of_same fun d => by rw [World.doc, World.doc, effect_documents hrow]
  · cases op
    case create doc =>
      show Lasting w (w.commit (w.documents.insert doc.created)).2
      cases h : w.documents.insert doc.created with
      | none => exact .refl w
      | some t => exact lasting_of_created h
    case updateDocument doc =>
      show Lasting w (w.commit (w.documents.updateDocument doc)).2
      cases h : w.documents.updateDocument doc with
      | none => exact .refl w
      | some t => exact lasting_of_written h
    case setClassification id tier =>
      refine .of_map (g := fun d r => if d = id then { r with classification := some tier } else r)
        (fun d r hm => ?_) fun d => setClassification_docs id d tier
      split <;> exact hm
    case softDelete id =>
      refine .of_map (g := fun d r => if d = id then r.hidden w.now else r) (fun d r hm => ?_)
        fun d => softDelete_docs id d
      split
      · exact hm.hidden w.now
      · exact hm
    case restore id =>
      refine .of_map (g := fun d r => if d = id then r.shown else r) (fun d r hm => ?_)
        fun d => restore_docs id d
      split
      · exact hm.shown
      · exact hm
    all_goals exact absurd rfl hrow

theorem lasting_of_visits {α : Type} {p : Stage α} (h : Visits (Acts sv) p w w') :
    Lasting w w' := by
  induction h with
  | start p w => exact .refl w
  | @call op next w u w' r ha _ ih =>
    obtain ⟨c, hc⟩ := ha
    have hu : u = (effect sv c op w).2 := by rw [hc]
    exact Lasting.trans (hu ▸ lasting_of_effect sv c op w) ih

end Operations

/-- How far the import of a new document has come. -/
inductive Standing where
  | unborn | owes | named
  deriving DecidableEq

/-- An import creates one document, and adds one version for it after that. -/
def importing (f : FileId) (id : DocumentId) :
    Discipline DriveOp DriveOp.Resp Exn Standing where
  allowed x op :=
    match op with
    | .repository (.create doc) => doc.id = id ∧ x = .unborn
    | .repository (.updateDocument _) => False
    | .addVersion g v => g = f ∧ v.documentId = id ∧ x = .owes
    | _ => True
  expected _ _ _ := True
  next x op r :=
    match op, r with
    | .repository (.create _), .ok _ => .owes
    | .addVersion _ _, .ok _ => .named
    | _, _ => x

/-- The row of this file is written, with this tier, and of no other. -/
def Files (f : FileId) (tier : Classification) : DriveOp → Prop
  | .putFile g row => g = f ∧ row.classification = some tier
  | _ => True

/-- Everything a sync does around the import: what leaves the standing of every import as it
is. -/
def Unrelated (f : FileId) (tier : Classification) : DriveOp → Prop
  | .repository (.getById _) | .repository (.restore _) | .repository (.setClassification _ _)
  | .repository (.audit _ _ _) => True
  | .repository _ | .addVersion _ _ => False
  | .putFile g row => g = f ∧ row.classification = some tier
  | _ => True

/-- Everything a sync sends: to that, what an upload does. -/
def Syncs (f : FileId) (tier : Classification) : DriveOp → Prop
  | .repository (.create doc) => doc.rawPath = none
  | .repository (.putObject bucket _ _) => bucket = .quarantine
  | .repository (.enqueue _ _) | .addVersion _ _ => True
  | op => Unrelated f tier op

theorem unrelated_next {f g : FileId} {tier : Classification} {id : DocumentId} {op : DriveOp}
    (h : Unrelated g tier op) (x : Standing) :
    (importing f id).allowed x op ∧ ∀ r, (importing f id).next x op r = x := by
  cases op
  case repository op =>
    cases op
    case create | updateDocument => exact h.elim
    all_goals exact ⟨trivial, fun _ => rfl⟩
  case addVersion => exact h.elim
  all_goals exact ⟨trivial, fun _ => rfl⟩

theorem syncs_of_unrelated {f : FileId} {tier : Classification} {op : DriveOp}
    (h : Unrelated f tier op) : Syncs f tier op := by
  cases op
  case repository op =>
    cases op
    case create | putObject => exact h.elim
    case enqueue => trivial
    all_goals exact h
  case addVersion => trivial
  all_goals exact h

theorem files_of_syncs {f : FileId} {tier : Classification} {op : DriveOp}
    (h : Syncs f tier op) : Files f tier op := by
  cases op
  case putFile g row => exact h
  all_goals trivial

namespace DriveSyncService

variable {α β : Type} {cfg : DriveConfig} {f : FileId} {id : DocumentId} {item : DriveFile}
  {tier : Classification} {folderId : FolderId} {row : DriveFileRow} {x : Standing}

abbrev Asides {α : Type} (g : FileId) (tier : Classification) (p : DriveStage α) : Prop :=
  p.Sends (Unrelated g tier) fun _ _ => True

/-- What happens before the import leaves it where it stands, and may raise. -/
theorem follows_aside_bind {g : FileId} {p : DriveStage α} {k : α → DriveStage β}
    (hp : Asides g tier p)
    (hk : ∀ a, Follows (importing f id) (fun _ _ => True) x (k a)) :
    Follows (importing f id) (fun _ _ => True) x (p >>= k) := by
  refine follows_bind (follows_of_sends (hp.mono fun _ hop => unrelated_next hop x) fun o => ?_)
  cases o with
  | ok a => exact hk a
  | error e => trivial

theorem follows_aside {g : FileId} {p : DriveStage α} (hp : Asides g tier p) :
    Follows (importing f id) (fun _ _ => True) x p :=
  follows_of_sends (hp.mono fun _ hop => unrelated_next hop x) fun _ => trivial

theorem record_asides (state : DriveFileState) (documentId : Option DocumentId)
    (reason : Option String) :
    Asides item.fileId tier (record item state tier folderId documentId reason) :=
  sends_bind (sends_perform trivial) fun _ => sends_perform ⟨rfl, rfl⟩

theorem inheritedTier_asides {g : FileId} : Asides g tier (inheritedTier row tier) := by
  unfold inheritedTier
  split
  · trivial
  · split
    · trivial
    · refine sends_bind (sends_perform trivial) fun previous => ?_
      cases previous.bind Document.classification <;> trivial

theorem restore_asides {g : FileId} : Asides g tier (restore f row) := by
  refine sends_bind (sends_perform trivial) fun versions => ?_
  dsimp only
  split
  · trivial
  · refine sends_bind (sends_perform trivial) fun back => ?_
    have hmark : ∀ (v : Option FileVersion) (d : DocumentId),
        Asides g tier (if v.isSome then ask (.setVersionState f d .pending) else pure ()) := by
      intro v d
      split
      · exact sends_perform trivial
      · trivial
    split
    · exact sends_bind (sends_perform trivial) fun _ => hmark _ _
    · exact hmark _ _

theorem reclassifyAll_asides {g : FileId} (ids : List DocumentId) :
    Asides g tier (reclassifyAll tier ids) := by
  induction ids with
  | nil => trivial
  | cons d ids ih =>
    refine sends_bind (sends_perform trivial) fun doc => ?_
    cases doc with
    | none => exact ih
    | some doc =>
      dsimp only
      split
      · exact ih
      · refine sends_bind (sends_perform trivial) fun _ => ?_
        exact sends_bind (sends_perform trivial) fun _ => ih

theorem unchangedContent_asides :
    Asides item.fileId tier (unchangedContent row item tier folderId) := by
  have hmove : Asides item.fileId tier (do
      if row.classification ≠ some tier then reclassify item.fileId row tier
      record item .imported tier folderId none none) := by
    split
    · refine sends_bind ?_ fun _ => record_asides _ _ _
      exact sends_bind (sends_perform trivial) fun _ => reclassifyAll_asides _
    · exact record_asides _ _ _
  unfold unchangedContent
  by_cases hrem : row.state = .removed
  · simp only [if_pos hrem]
    exact sends_bind restore_asides fun _ => hmove
  · simp only [if_neg hrem]
    exact hmove

/-- After an upload was received its document is there, and owed a version. -/
theorem receive_follows (filename : String) (data : Bytes) (request : UploadRequest)
    (mimeType : String) :
    Follows (importing f id) (fun y o => ∀ a, o = .ok a → y = .owes ∧ a.documentId = id) .unborn
      (onDocuments (UploadService.receive id filename data request mimeType)) := by
  refine ⟨trivial, fun r _ => ?_⟩
  cases r with
  | error e => exact fun a ha => by cases ha
  | ok _ =>
    refine ⟨⟨rfl, rfl⟩, fun r _ => ?_⟩
    cases r with
    | error e => exact fun a ha => by cases ha
    | ok _ =>
      refine ⟨trivial, fun r _ => ?_⟩
      cases r with
      | error e => exact fun a ha => by cases ha
      | ok _ =>
        refine ⟨trivial, fun r _ => ?_⟩
        cases r with
        | error e => exact fun a ha => by cases ha
        | ok _ =>
          intro a ha
          obtain rfl := Except.ok.inj ha
          exact ⟨rfl, rfl⟩

theorem importBytes_follows (existing : Option DriveFileRow) (data : Bytes) (mimeType : String) :
    Follows (importing item.fileId id) (fun _ _ => True) .unborn
      (importBytes cfg id item tier folderId existing data mimeType) := by
  have hrest : ∀ importTier, Follows (importing item.fileId id) (fun _ _ => True) .unborn (do
      let response ← onDocuments (UploadService.receive id (storedName item) data
        (request importTier (cfg.ownerOf item.ownerEmail)) mimeType)
      record item .imported tier folderId (some response.documentId) none
      ask (.addVersion item.fileId { documentId := response.documentId, state := .pending })) := by
    intro importTier
    refine follows_bind ((receive_follows _ _ _ _).mono fun y o ho => ?_)
    cases o with
    | error e => trivial
    | ok response =>
      obtain ⟨rfl, hid⟩ := ho response rfl
      refine follows_aside_bind (record_asides _ _ _) fun _ => ?_
      exact follows_perform ⟨rfl, hid, rfl⟩ fun _ _ => trivial
  unfold importBytes
  cases existing with
  | none => exact hrest tier
  | some row => exact follows_aside_bind (inheritedTier_asides (g := item.fileId)) hrest

theorem importContent_follows (existing : Option DriveFileRow) :
    Follows (importing item.fileId id) (fun _ _ => True) .unborn
      (importContent cfg id item tier folderId existing) := by
  have hskip : ∀ reason : String, Follows (importing item.fileId id) (fun _ _ => True) .unborn
      (record item .skipped tier folderId none (some reason)) :=
    fun reason => follows_aside (record_asides _ _ _)
  unfold importContent
  dsimp only
  split
  · exact hskip _
  · split
    · exact hskip _
    · have hfetch : Asides item.fileId tier (ask (.fetchBytes item)) := sends_perform trivial
      refine follows_aside_bind hfetch fun data => ?_
      split
      · exact hskip _
      · split
        · exact hskip _
        · exact importBytes_follows _ _ _

theorem syncItem_follows :
    Follows (importing item.fileId id) (fun _ _ => True) .unborn
      (syncItem cfg id item tier folderId) := by
  have hone : Follows (importing item.fileId id) (fun _ _ => True) .unborn
      (syncOne cfg id item tier folderId) := by
    have hfile : Asides item.fileId tier (ask (.getFile item.fileId)) := sends_perform trivial
    refine follows_aside_bind hfile fun existing => ?_
    split
    · exact importContent_follows _
    · split
      · exact importContent_follows _
      · exact follows_aside unchangedContent_asides
  refine follows_bind (follows_attempt (hone.mono fun y o _ => ?_))
  cases o with
  | ok a => trivial
  | error e => exact follows_aside (record_asides _ _ _)

theorem receive_syncs {g : FileId} (filename : String) (data : Bytes) (request : UploadRequest)
    (mimeType : String) :
    (onDocuments (UploadService.receive id filename data request mimeType)).Sends (Syncs g tier)
      fun _ _ => True := by
  refine ⟨rfl, fun r _ => ?_⟩
  cases r with
  | error e => trivial
  | ok _ =>
    refine ⟨rfl, fun r _ => ?_⟩
    cases r with
    | error e => trivial
    | ok _ =>
      refine ⟨trivial, fun r _ => ?_⟩
      cases r with
      | error e => trivial
      | ok _ =>
        refine ⟨trivial, fun r _ => ?_⟩
        cases r <;> trivial

theorem syncItem_syncs :
    (syncItem cfg id item tier folderId).Sends (Syncs item.fileId tier) fun _ _ => True := by
  have haside : ∀ {α : Type} {p : DriveStage α}, Asides item.fileId tier p →
      p.Sends (Syncs item.fileId tier) fun _ _ => True :=
    fun hp => hp.mono fun _ => syncs_of_unrelated
  have hrecord : ∀ state documentId reason,
      (record item state tier folderId documentId reason).Sends (Syncs item.fileId tier)
        fun _ _ => True := fun state documentId reason => haside (record_asides _ _ _)
  have hbytes : ∀ existing data mimeType,
      (importBytes cfg id item tier folderId existing data mimeType).Sends
        (Syncs item.fileId tier) fun _ _ => True := by
    intro existing data mimeType
    have hrest : ∀ importTier, Sends (Syncs item.fileId tier) (fun _ _ => True) (do
        let response ← onDocuments (UploadService.receive id (storedName item) data
          (request importTier (cfg.ownerOf item.ownerEmail)) mimeType)
        record item .imported tier folderId (some response.documentId) none
        ask (.addVersion item.fileId
          { documentId := response.documentId, state := .pending })) := by
      intro importTier
      refine sends_bind (receive_syncs _ _ _ _) fun response => ?_
      exact sends_bind (hrecord _ _ _) fun _ => sends_perform trivial
    unfold importBytes
    cases existing with
    | none => exact hrest tier
    | some row => exact sends_bind (haside inheritedTier_asides) hrest
  have hcontent : ∀ existing, (importContent cfg id item tier folderId existing).Sends
      (Syncs item.fileId tier) fun _ _ => True := by
    intro existing
    unfold importContent
    dsimp only
    split
    · exact hrecord _ _ _
    · split
      · exact hrecord _ _ _
      · refine sends_bind (sends_perform trivial) fun data => ?_
        split
        · exact hrecord _ _ _
        · split
          · exact hrecord _ _ _
          · exact hbytes _ _ _
  have hone : (syncOne cfg id item tier folderId).Sends (Syncs item.fileId tier)
      fun _ _ => True := by
    refine sends_bind (sends_perform trivial) fun existing => ?_
    split
    · exact hcontent _
    · split
      · exact hcontent _
      · exact haside unchangedContent_asides
  refine sends_bind (sends_attempt hone) fun o => ?_
  cases o with
  | ok a => trivial
  | error e => exact hrecord _ _ _

/-- Whatever becomes of it, a sync writes the row of its own file only, and with its tier. -/
theorem syncItem_files :
    (syncItem cfg id item tier folderId).Sends (Files item.fileId tier) fun _ _ => True :=
  syncItem_syncs.mono fun _ => files_of_syncs

end DriveSyncService

section Standing

variable {sv : Services} {fetched : Except Exn Bytes} {f : FileId} {id : DocumentId}
  {s t u : DriveState}

/-- What a standing says of the documents and of the versions, seen from the start. -/
def Stands (f : FileId) (id : DocumentId) (s : DriveState) : Standing → DriveState → Prop
  | .unborn, t => t.doc id = none ∧ ∀ g, t.ids g = s.ids g
  | .owes, t => t.doc id ≠ none ∧ ∀ g, t.ids g = s.ids g
  | .named, t => t.doc id ≠ none ∧ ∀ g, t.ids g = if g = f then s.ids g ++ [id] else s.ids g

/-- The document is there or not as before, and so are the versions. -/
theorem Stands.same {x : Standing} (h : Stands f id s x t) (hdoc : t.doc id = none ↔ u.doc id = none)
    (hids : ∀ g, u.ids g = t.ids g) : Stands f id s x u := by
  cases x with
  | unborn => exact ⟨hdoc.mp h.1, fun g => (hids g).trans (h.2 g)⟩
  | owes => exact ⟨fun hn => h.1 (hdoc.mpr hn), fun g => (hids g).trans (h.2 g)⟩
  | named => exact ⟨fun hn => h.1 (hdoc.mpr hn), fun g => (hids g).trans (h.2 g)⟩

/-- With the database down nothing happens, or what would happen with it up. -/
theorem repositoryEffect_cases (sv : Services) (c : DriveLuck) (op : Op) (w : World) :
    (∃ e, repositoryEffect sv c op w = (.error e, w)) ∨
      ∃ c', repositoryEffect sv c op w = effect sv c' op w := by
  unfold repositoryEffect
  split
  · exact .inr ⟨_, rfl⟩
  · split
    · exact .inl ⟨_, rfl⟩
    · exact .inr ⟨_, rfl⟩

theorem lasting_of_driveEffect (sv : Services) (fetched : Except Exn Bytes) (c : DriveLuck)
    (op : DriveOp) (s : DriveState) :
    Lasting s.world (driveEffect sv fetched c op s).2.world := by
  rcases c with ⟨storage, _ | e⟩
  · cases op
    case repository op => exact lasting_of_effect sv storage op s.world
    all_goals exact .refl _
  · cases op
    case repository op =>
      show Lasting s.world (repositoryEffect sv _ op s.world).2
      rcases repositoryEffect_cases sv { storage, outage := some e } op s.world with
        ⟨e', he⟩ | ⟨c', hc⟩
      · rw [he]
        exact .refl _
      · rw [hc]
        exact lasting_of_effect sv c' op s.world
    all_goals exact .refl _

/-- Only two operations bring a row about. -/
theorem unborn_of_effect {c : Luck} {op : Op} {w : World} (hc : ∀ doc, op ≠ .create doc)
    (hu : ∀ doc, op ≠ .updateDocument doc) (hn : w.doc id = none) :
    (effect sv c op w).2.doc id = none := by
  by_cases hrow : op.row = none
  · have hdocs : (effect sv c op w).2.documents = w.documents := effect_documents hrow
    rw [World.doc, hdocs]
    exact hn
  · cases op
    case create doc => exact absurd rfl (hc doc)
    case updateDocument doc => exact absurd rfl (hu doc)
    case setClassification d tier =>
      show (w.setClassification d tier).doc id = none
      rw [setClassification_docs, hn]
      rfl
    case softDelete d =>
      show (w.softDelete d).2.doc id = none
      rw [softDelete_docs, hn]
      rfl
    case restore d =>
      show (w.restore d).2.doc id = none
      rw [restore_docs, hn]
      rfl
    all_goals exact absurd rfl hrow

theorem stands_of_create {c : DriveLuck} {doc : Document} (hid : doc.id = id)
    (h : Stands f id s .unborn t) :
    Stands f id s
      ((importing f id).next .unborn (.repository (.create doc))
        (driveEffect sv fetched c (.repository (.create doc)) t).1)
      (driveEffect sv fetched c (.repository (.create doc)) t).2 := by
  have hcreate : ∀ r w, Acts sv (.create doc) t.world r w →
      Stands f id s ((importing f id).next .unborn (.repository (.create doc)) r)
        { t with world := w } := by
    intro r w ha
    rcases acts_create.mp ha with ⟨-, rfl, rfl⟩ | ⟨docs, hdocs, rfl, rfl⟩
    · exact h
    · refine ⟨?_, h.2⟩
      show docs.get id ≠ none
      have hself : doc.created.id = id := hid
      rw [Documents.insert_get hdocs, if_pos hself]
      cases t.world.documents.get id <;> exact Option.some_ne_none _
  show Stands f id s _ { t with world := (repositoryEffect sv c (.create doc) t.world).2 }
  rcases repositoryEffect_cases sv c (.create doc) t.world with ⟨e, he⟩ | ⟨c', hc⟩
  · have hsame : driveEffect sv fetched c (.repository (.create doc)) t = (.error e, t) := by
      show ((repositoryEffect sv c (.create doc) t.world).1, _) = _
      rw [he]
    rw [hsame, he]
    exact h
  · have hans : (driveEffect sv fetched c (.repository (.create doc)) t).1 =
        (effect sv c' (.create doc) t.world).1 := by
      show (repositoryEffect sv c (.create doc) t.world).1 = _
      rw [hc]
    rw [hans, hc]
    exact hcreate _ _ ⟨c', rfl⟩

theorem stands_of_driveEffect (x : Standing) (c : DriveLuck) (op : DriveOp) (t : DriveState)
    (hop : (importing f id).allowed x op) (h : Stands f id s x t) :
    Stands f id s ((importing f id).next x op (driveEffect sv fetched c op t).1)
      (driveEffect sv fetched c op t).2 := by
  have hlast := lasting_of_driveEffect sv fetched c op t
  cases op
  case repository op =>
    by_cases hc : ∃ doc, op = .create doc
    · obtain ⟨doc, rfl⟩ := hc
      obtain ⟨hid, rfl⟩ := hop
      exact stands_of_create hid h
    · have hu : ∀ doc, op ≠ .updateDocument doc := by
        rintro doc rfl
        exact hop
      have hnext : ∀ r, (importing f id).next x (.repository op) r = x := by
        intro r
        cases op
        case create doc => exact absurd ⟨doc, rfl⟩ hc
        all_goals rfl
      rw [hnext]
      refine h.same ⟨fun hn => ?_, fun hn => ?_⟩ fun _ => rfl
      · show (repositoryEffect sv c op t.world).2.doc id = none
        rcases repositoryEffect_cases sv c op t.world with ⟨e, he⟩ | ⟨c', hc'⟩
        · rw [he]
          exact hn
        · rw [hc']
          exact unborn_of_effect (fun doc he => hc ⟨doc, he⟩) hu hn
      · by_contra hne
        exact hlast.doc_ne_none hne hn
  case addVersion g v =>
    obtain ⟨rfl, rfl, rfl⟩ := hop
    rcases c with ⟨storage, _ | e⟩
    · refine ⟨h.1, fun k => ?_⟩
      show DriveState.ids (t.putVersions g (t.versions g ++ [v])) k = _
      rw [← h.2 k]
      by_cases hk : k = g
      · subst hk
        simp [DriveState.ids]
      · rw [if_neg hk, DriveState.ids, DriveState.putVersions_other _ hk, DriveState.ids]
    · exact h
  case setVersionState g d state =>
    rcases c with ⟨storage, _ | e⟩
    · refine h.same Iff.rfl fun k => ?_
      show DriveState.ids (t.putVersions g ((t.versions g).map (FileVersion.marked d state))) k = _
      by_cases hk : k = g
      · subst hk
        simp only [DriveState.ids, DriveState.putVersions_versions]
        exact FileVersion.ids_map (fun v => by simp) _
      · rw [DriveState.ids, DriveState.putVersions_other _ hk, DriveState.ids]
    · exact h
  all_goals
    rcases c with ⟨storage, _ | e⟩
    · exact h.same Iff.rfl fun _ => rfl
    · exact h.same Iff.rfl fun _ => rfl

end Standing

theorem retireFile_tracks (s : DriveState) (f : FileId) :
    Lasting s.world (retireFile s f).world ∧ ∀ g, (retireFile s f).ids g = s.ids g := by
  cases hrow : s.file f with
  | none =>
    rw [retireFile, hrow]
    exact ⟨.refl _, fun _ => rfl⟩
  | some row =>
    obtain ⟨w, -, hdocs, ht⟩ := retireFile_spec hrow
    rw [ht]
    have hrows : Lasting s.world w := by
      refine .of_map (fun d r hm => ?_) hdocs
      split
      · exact hm.hidden _
      · exact hm
    refine ⟨hrows, fun g => ?_⟩
    · simp only [DriveState.ids, DriveState.putFile_versions]
      by_cases hg : g = f
      · subst hg
        rw [DriveState.putVersions_versions]
        exact FileVersion.ids_map (fun v => by simp) _
      · rw [DriveState.putVersions_other _ hg]

theorem reconcileFile_tracks (sv : Services) (s : DriveState) (f : FileId) :
    Lasting s.world (reconcileFile sv s f).world ∧
      ∀ g, (reconcileFile sv s f).ids g = s.ids g := by
  have hspec := reconcileFile_spec sv s f
  generalize reconcileFile sv s f = t at hspec ⊢
  cases hspec with
  | waits hn =>
    refine ⟨.refl _, fun g => ?_⟩
    by_cases hg : g = f
    · subst hg
      simp only [DriveState.ids, DriveState.putVersions_versions]
      exact FileVersion.ids_map (fun v => by simp) _
    · rw [DriveState.ids, DriveState.putVersions_other _ hg, DriveState.ids]
  | promotes older newest w hv hp hl hobjects hdocs =>
    have hrow : ∀ (d : DocumentId) (r : Document), Mortal r →
        Mortal (supersededRow s.world (outdated older) d r) := by
      intro d r hm
      unfold supersededRow
      split
      · exact Mortal.hidden (d := { r with status := .superseded }) hm _
      · exact hm
    refine ⟨⟨fun d r hr => ?_, fun d r' hn hr' => ?_⟩, fun g => ?_⟩
    · have hd := hdocs d
      have hr' : s.doc d = some r := hr
      rw [hr', Option.map_some] at hd
      obtain ⟨r', hr'', he⟩ := Option.map_eq_some_iff.mp hd
      refine ⟨r', hr'', fun hm => ?_⟩
      have hm' : Mortal r'.unversioned := he ▸ hrow d r hm
      exact hm'
    · have hd := hdocs d
      have hn' : s.doc d = none := hn
      have hr'' : w.doc d = some r' := hr'
      rw [hn', hr''] at hd
      cases hd
    · by_cases hg : g = f
      · subst hg
        have hids := congrArg (List.map FileVersion.documentId) hv
        rw [FileVersion.ids_map (fun v => by simp)] at hids
        simp only [DriveState.ids, DriveState.putVersions_versions]
        rw [hids, List.map_append, List.map_append, FileVersion.ids_map (fun v => by simp)]
        rfl
      · rw [DriveState.ids, DriveState.putVersions_other _ hg, DriveState.ids]

namespace SyncState

variable {sv : Services} {cfg : DriveConfig} {s t : SyncState} {a : SyncAction} {f : FileId}
  {id : DocumentId}

/-- The new document a step may create, and the file it would be for. -/
def attempted (s : SyncState) : SyncAction → Option (DocumentId × FileId)
  | .syncItem id _ _ | .dieInItem id _ _ _ =>
    match s.pass with
    | some { phase := .syncing ((item, _, _) :: _), .. } => some (id, item.fileId)
    | _ => none
  | _ => none

/-- How far a step brings the import of its document. -/
def standing (sv : Services) (cfg : DriveConfig) (s : SyncState) : SyncAction → Standing
  | .syncItem id fetched luck =>
    match s.pass with
    | some { phase := .syncing ((item, tier, folderId) :: _), .. } =>
      (importing item.fileId id).along .unborn (log (driveEffect sv fetched) luck
        (DriveSyncService.syncItem cfg id item tier folderId) s.store)
    | _ => .unborn
  | .dieInItem id fetched luck operations =>
    match s.pass with
    | some { phase := .syncing ((item, tier, folderId) :: _), .. } =>
      (importing item.fileId id).along .unborn (trace (driveEffect sv fetched) luck operations
        (DriveSyncService.syncItem cfg id item tier folderId) s.store)
    | _ => .unborn
  | _ => .unborn

/-- What any step whatever does to the rows and to the versions. -/
inductive Tracks (sv : Services) (cfg : DriveConfig) (s : SyncState) (a : SyncAction)
    (t : SyncState) : Prop
  | keeps (hids : ∀ g, t.store.ids g = s.store.ids g) (hnone : s.attempted a = none)
  | attempts (id : DocumentId) (f : FileId) (hat : s.attempted a = some (id, f))
      (hfresh : s.store.doc id = none)
      (hst : Stands f id s.store (standing sv cfg s a) t.store)

theorem stands_start (hfresh : s.store.doc id = none) :
    Lasting s.store.world s.store.world ∧ Stands f id s.store .unborn s.store :=
  ⟨.refl _, hfresh, fun _ => rfl⟩

theorem stands_op (sv : Services) (fetched : Except Exn Bytes) (s : SyncState) (x : Standing) (c : DriveLuck)
    (op : DriveOp) (u : DriveState) (hop : (importing f id).allowed x op)
    (h : Lasting s.store.world u.world ∧ Stands f id s.store x u) :
    Lasting s.store.world (driveEffect sv fetched c op u).2.world ∧
      Stands f id s.store ((importing f id).next x op (driveEffect sv fetched c op u).1)
        (driveEffect sv fetched c op u).2 :=
  ⟨h.1.trans (lasting_of_driveEffect sv fetched c op u), stands_of_driveEffect x c op u hop h.2⟩

theorem tracks_of_step (h : step sv cfg s a = some t) :
    Lasting s.store.world t.store.world ∧ Tracks sv cfg s a t := by
  cases a with
  | syncItem id fetched luck =>
    simp only [step] at h
    split at h
    · rename_i listing limited item tier folderId items hp
      split at h
      · rename_i hfresh
        have hnone := Option.isNone_iff_eq_none.mp hfresh
        have hfollows : Follows (importing item.fileId id) (fun _ _ => True) .unborn
            (DriveSyncService.syncItem cfg id item tier folderId) := syncItem_follows
        have hinv := hfollows.invariant_run
            (I := fun x u => Lasting s.store.world u.world ∧ Stands item.fileId id s.store x u)
            (fun _ _ _ _ => trivial) (fun x c op u => stands_op sv fetched s x c op u)
            luck (stands_start hnone)
        have hstand : standing sv cfg s (.syncItem id fetched luck) =
            (importing item.fileId id).along .unborn (log (driveEffect sv fetched) luck
              (DriveSyncService.syncItem cfg id item tier folderId) s.store) := by
          simp only [standing, hp]
        have hat : s.attempted (.syncItem id fetched luck) = some (id, item.fileId) := by
          simp only [attempted, hp]
        have hstore : t.store = (run (driveEffect sv fetched) luck
            (DriveSyncService.syncItem cfg id item tier folderId) s.store).2 := by
          split at h
          · rename_i hrun
            rw [hrun]
            rw [← Option.some.inj h]
          · rename_i hrun
            rw [hrun]
            rw [← Option.some.inj h]
        rw [← hstand, ← hstore] at hinv
        exact ⟨hinv.1, .attempts id item.fileId hat hnone hinv.2⟩
      · cases h
    · cases h
  | dieInItem id fetched luck operations =>
    simp only [step] at h
    split at h
    · rename_i listing limited item tier folderId items hp
      split at h
      · rename_i hfresh
        have hnone := Option.isNone_iff_eq_none.mp hfresh
        have hfollows : Follows (importing item.fileId id) (fun _ _ => True) .unborn
            (DriveSyncService.syncItem cfg id item tier folderId) := syncItem_follows
        have hinv := hfollows.invariant_after
            (I := fun x u => Lasting s.store.world u.world ∧ Stands item.fileId id s.store x u)
            (fun _ _ _ _ => trivial) (fun x c op u => stands_op sv fetched s x c op u)
            luck operations (stands_start hnone)
        have hstand : standing sv cfg s (.dieInItem id fetched luck operations) =
            (importing item.fileId id).along .unborn (trace (driveEffect sv fetched) luck
              operations (DriveSyncService.syncItem cfg id item tier folderId) s.store) := by
          simp only [standing, hp]
        have hat : s.attempted (.dieInItem id fetched luck operations) =
            some (id, item.fileId) := by
          simp only [attempted, hp]
        obtain rfl := Option.some.inj h
        rw [← hstand] at hinv
        exact ⟨hinv.1, .attempts id item.fileId hat hnone hinv.2⟩
      · cases h
    · cases h
  | stage stage id luck operations =>
    obtain rfl := Option.some.inj h
    have hvisits : Visits (Acts sv) (processJob sv stage id) s.store.world
        (after (effect sv) luck operations (processJob sv stage id) s.store.world).2 :=
      visits_after (fun n _ _ => ⟨luck n, rfl⟩) operations _ _
    exact ⟨lasting_of_visits hvisits, .keeps (fun _ => rfl) rfl⟩
  | classify id tier =>
    obtain ⟨store, hc, rfl⟩ := Option.map_eq_some_iff.mp h
    have hh := classify_handled hc
    refine ⟨.of_map (fun d r hm => ?_) hh.docs, .keeps (fun g => ?_) rfl⟩
    · split <;> exact hm
    · rw [DriveState.ids, hh.versions, DriveState.ids]
  | restoreInApp id =>
    obtain ⟨store, hr, rfl⟩ := Option.map_eq_some_iff.mp h
    have hh := restoreInApp_handled hr
    refine ⟨.of_map (fun d r hm => ?_) hh.docs, .keeps (fun g => ?_) rfl⟩
    · split
      · exact hm.shown
      · exact hm
    · rw [DriveState.ids, hh.versions, DriveState.ids]
  | erase id =>
    obtain ⟨store, he, rfl⟩ := Option.map_eq_some_iff.mp h
    obtain ⟨-, hversions, hrows⟩ := erase_rows he
    refine ⟨.of_relate (fun r r' hr hm => ?_) hrows, .keeps (fun g => ?_) rfl⟩
    · rcases hr with rfl | ⟨-, -, -, hd, -⟩
      · exact hm
      · exact fun _ => hd
    · rw [DriveState.ids, hversions, DriveState.ids]
  | retireFile =>
    simp only [step] at h
    split at h
    · obtain rfl := Option.some.inj h
      have hr := retireFile_tracks s.store
      exact ⟨(hr _).1, .keeps (hr _).2 rfl⟩
    · cases h
  | reconcileFile =>
    simp only [step] at h
    split at h
    · obtain rfl := Option.some.inj h
      have hr := reconcileFile_tracks sv s.store
      exact ⟨(hr _).1, .keeps (hr _).2 rfl⟩
    · cases h
  | syncOnce | nextPhase | finish =>
    have hstore : t.store = s.store := by
      simp only [step] at h
      split at h
      all_goals first
        | (obtain rfl := Option.some.inj h; rfl)
        | (cases h)
    rw [hstore]
    exact ⟨.refl _, .keeps (fun _ => by rw [hstore]) rfl⟩

theorem mem_ids_of_step (h : step sv cfg s a = some t) (hid : id ∈ s.store.ids f) :
    id ∈ t.store.ids f := by
  cases (tracks_of_step h).2 with
  | keeps hids hnone =>
    rw [hids]
    exact hid
  | attempts d g hat hfresh hst =>
    cases hx : standing sv cfg s a with
    | unborn | owes =>
      rw [hx] at hst
      rw [hst.2]
      exact hid
    | named =>
      rw [hx] at hst
      rw [hst.2]
      split
      · exact List.mem_append_left _ hid
      · exact hid

/-- A document that was created and is not owed a version has one. -/
theorem mem_ids_of_created (h : step sv cfg s a = some t) (hok : standing sv cfg s a ≠ .owes)
    (hat : s.attempted a = some (id, f)) (hdoc : t.store.doc id ≠ none) :
    id ∈ t.store.ids f := by
  cases (tracks_of_step h).2 with
  | keeps hids hnone =>
    rw [hat] at hnone
    cases hnone
  | attempts d g hat' hfresh hst =>
    rw [hat] at hat'
    obtain ⟨rfl, rfl⟩ := Prod.mk.inj (Option.some.inj hat')
    cases hx : standing sv cfg s a with
    | unborn =>
      rw [hx] at hst
      exact absurd hst.1 hdoc
    | owes => exact absurd hx hok
    | named =>
      rw [hx] at hst
      rw [hst.2, if_pos rfl]
      simp

/-- The documents the sync creates along a history, each with its file. -/
def created (sv : Services) (cfg : DriveConfig) :
    SyncState → List SyncAction → List (DocumentId × FileId)
  | _, [] => []
  | s, a :: as =>
    match step sv cfg s a with
    | none => []
    | some t =>
      ((s.attempted a).filter fun p => (t.store.doc p.1).isSome).toList ++ created sv cfg t as

/-- Every document that was created and is not deleted is named by a version of its file. -/
def EveryImportTracked (imports : List (DocumentId × FileId)) (t : SyncState) : Prop :=
  ∀ p ∈ imports, ∀ r ∈ t.store.doc p.1, r.deletedAt = none → p.1 ∈ t.store.ids p.2

instance (imports : List (DocumentId × FileId)) (t : SyncState) :
    Decidable (EveryImportTracked imports t) := by
  unfold EveryImportTracked
  infer_instance

theorem created_named {as : List SyncAction}
    (h : Transition.Runs (step sv cfg) (fun s a => standing sv cfg s a ≠ .owes) s as t) :
    ∀ p ∈ created sv cfg s as, p.1 ∈ t.store.ids p.2 := by
  induction as generalizing s with
  | nil => simp [created]
  | cons a as ih =>
    obtain ⟨hok, u, hu, hr⟩ := h
    intro p hp
    rw [created, hu] at hp
    rcases List.mem_append.mp hp with hp | hp
    · obtain ⟨hat, hdoc⟩ := Option.filter_eq_some_iff.mp (Option.mem_toList.mp hp)
      have hmem := mem_ids_of_created hu hok hat (Option.isSome_iff_ne_none.mp hdoc)
      exact Transition.Runs.invariant (I := fun v => p.1 ∈ v.store.ids p.2)
        (fun _ _ _ hm _ hv => mem_ids_of_step hv hm) hr hmem
    · exact ih hr p hp

/-- Where no import is broken off between the commit of its document and the commit of its
version, every document the sync has created stays within its reach. -/
theorem every_import_tracked {as : List SyncAction}
    (h : Transition.Runs (step sv cfg) (fun s a => standing sv cfg s a ≠ .owes) s as t) :
    EveryImportTracked (created sv cfg s as) t :=
  fun p hp _ _ _ => created_named h p hp

/-- With the database up and the process alive no import is broken off. -/
theorem standing_of_undisturbed (h : step sv cfg s a = some t) (ha : a.Undisturbed) :
    standing sv cfg s a ≠ .owes := by
  intro hx
  cases (tracks_of_step h).2 with
  | keeps hids hnone =>
    cases step_cases h ha with
    | syncs _ _ _ listing limited item tier folderId items store hp hfresh h =>
      simp [attempted, hp] at hnone
    | _ => cases hx
  | attempts d g hat hfresh hst =>
    rw [hx] at hst
    cases step_cases h ha with
    | syncs _ _ _ listing limited item tier folderId items store hp hfresh' hsync =>
      simp only [attempted, hp, Option.some.injEq, Prod.mk.injEq] at hat
      obtain ⟨rfl, rfl⟩ := hat
      obtain ⟨hdoc, hids⟩ := hst
      cases hsync with
      | unchanged row u hk hc hu =>
        refine hdoc ?_
        show u.doc _ = none
        rw [hu.docs, hfresh]
        rfl
      | passedOver state reason hn hst => exact hdoc hfresh
      | imported data mimeType w hn hd hm hobjects hdocs =>
        have hmine := congrArg List.length (hids item.fileId)
        simp [DriveState.ids, DriveState.putFile] at hmine
    | _ => cases hat

/-- The process dies when the document has been queued; the next pass takes the file for one
that is new. -/
def brokenOff : List SyncAction :=
  [.syncOnce (.of [(memoFile "f" "1" 1, .public, "root")] (by decide)) none,
    .dieInItem 0 (.ok [37]) (fun _ => .fine) 5] ++ pipeline 0 ++
  fullPass (.of [(memoFile "f" "1" 1, .public, "root")] (by decide)) [syncing 1 [37]] 0 1

theorem import_left_untracked : ¬ ∀ (sv : Services) (cfg : DriveConfig) (s t : SyncState)
    (as : List SyncAction), s.Fresh → Transition.Runs (step sv cfg) (fun _ _ => True) s as t →
    EveryImportTracked (created sv cfg s as) t := by
  intro hall
  have hrun : Transition.Runs (step plainServices plainDrive) (fun _ _ => True) start brokenOff _ :=
    Transition.runs_of_exec_free (by decide +kernel)
  have htracked := hall plainServices plainDrive start _ _ start_fresh hrun
  revert htracked
  decide +kernel

/-- The storage fails the first upload, and the second goes through. -/
def uploadFails : List SyncAction :=
  [.syncOnce (.of [(memoFile "f" "1" 1, .public, "root")] (by decide)) none,
    .syncItem 0 (.ok [37]) fun _ => { storage := .fails "timeout", outage := none }] ++
  [.nextPhase, .nextPhase, .finish] ++
  fullPass (.of [(memoFile "f" "1" 1, .public, "root")] (by decide)) [syncing 1 [37]] 0 1

theorem second_upload_tracked : EveryImportTracked
    (created plainServices plainDrive start uploadFails)
    (Transition.finalState (step plainServices plainDrive) start uploadFails) ∧
    created plainServices plainDrive start uploadFails = [(1, "f")] :=
  ⟨every_import_tracked (Transition.runs_of_exec
    (fun s a => decide (standing plainServices plainDrive s a ≠ .owes))
    (fun _ _ h => of_decide_eq_true h) (by decide +kernel)), by decide +kernel⟩

end SyncState

end KnowledgeBase
