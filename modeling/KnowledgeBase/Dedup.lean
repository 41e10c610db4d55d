import KnowledgeBase.ScanRecovery

/-! Scans of files with the same bytes. A copy is dropped in favour of the document
that has its hash, and a promotion that failed has recorded the hash as well. -/

namespace KnowledgeBase

open Program ScanJobHandler

/-- The states uploads and scans lead to, one execution after another, each of which
may fail at any operation or die there. -/
inductive Scanned (sv : Services) : World → Prop
  | start {w : World} (h : w.documents.rows = []) : Scanned sv w
  | receive {w w' : World} (h : Scanned sv w) (id : DocumentId) (filename : String)
      (data : Bytes) (request : UploadRequest) (mimeType : String)
      (hr : Visits (Acts sv) (UploadService.receive id filename data request mimeType) w w') :
      Scanned sv w'
  | scan {w w' : World} (h : Scanned sv w) (id : DocumentId)
      (hs : Visits (Acts sv) (processJob sv .scan id) w w') : Scanned sv w'

/-- What the row of a document says about its file, as far as scans bring it. -/
structure RowKept (w : World) (r : Document) : Prop where
  scanned : r.status ∈ [DocumentStatus.quarantined, .validationFailed, .validated, .rejected,
    .duplicate]
  quarantined : r.status = .quarantined → r.checksum = none ∧ r.rawPath = none
  failed : r.status = .validationFailed → r.rawPath = none
  promoted : r.status = .validated → ∃ k, r.rawPath = some k ∧ w.objects .raw k ≠ none

def Kept (w : World) : Prop := ∀ id r, w.doc id = some r → RowKept w r

/-- Nothing has left the raw bucket. -/
def RawGrows (w w' : World) : Prop := ∀ k, w.objects .raw k ≠ none → w'.objects .raw k ≠ none

/-- A row a scan may write without having moved a file. -/
def Unpromoted (doc : Document) : Prop :=
  (doc.status = .quarantined ∧ doc.checksum = none ∧ doc.rawPath = none) ∨
    (doc.status = .validationFailed ∧ doc.rawPath = none) ∨ doc.status = .rejected ∨
      doc.status = .duplicate

/-- The operations that keep the invariant whatever the state. -/
def KeepsFiles : Op → Prop
  | .create doc | .updateDocument doc => Unpromoted doc
  | .putObject b _ _ | .deleteObject b _ => b = .quarantine
  | .copyObject _ _ b _ => b = .raw
  | .softDelete _ | .restore _ => False
  | _ => True

theorem RowKept.mono {w w' : World} {r : Document} (h : RowKept w r) (hraw : RawGrows w w') :
    RowKept w' r where
  scanned := h.scanned
  quarantined := h.quarantined
  failed := h.failed
  promoted := by
    intro hs
    obtain ⟨k, hk, ho⟩ := h.promoted hs
    exact ⟨k, hk, hraw k ho⟩

theorem Unpromoted.kept {doc r : Document} (h : Unpromoted doc) (w : World)
    (hs : r.status = doc.status) (hc : r.checksum = doc.checksum)
    (hp : r.rawPath = doc.rawPath) : RowKept w r := by
  rcases h with ⟨hd, hdc, hdp⟩ | ⟨hd, hdp⟩ | hd | hd <;> rw [hd] at hs
  · exact ⟨by simp [hs], fun _ => ⟨hc.trans hdc, hp.trans hdp⟩, by simp [hs], by simp [hs]⟩
  · exact ⟨by simp [hs], by simp [hs], fun _ => hp.trans hdp, by simp [hs]⟩
  · exact ⟨by simp [hs], by simp [hs], by simp [hs], by simp [hs]⟩
  · exact ⟨by simp [hs], by simp [hs], by simp [hs], by simp [hs]⟩

section Step

variable {sv : Services} {w w' : World} {op : Op}

theorem setObject_raw_grows {k : ObjectKey} {v : Option Bytes} {b : Bucket}
    (h : b = .quarantine ∨ v ≠ none) : RawGrows w (w.setObject b k v) := by
  intro k' hk'
  by_cases hb : b = .raw
  · subst hb
    have hv := h.resolve_left (by decide)
    by_cases hk : k' = k
    · subst hk
      rw [setObject_objects_self]
      exact hv
    · simpa [World.setObject, Function.update_of_ne hk] using hk'
  · rw [setObject_objects_other (Ne.symm hb)]
    exact hk'

/-- An operation leaves the files alone, stores one, or deletes one. -/
theorem acts_objects {r : Except Exn op.Resp} (h : Acts sv op w r w') :
    w'.objects = w.objects ∨
    (∃ b k v, w'.objects = (w.setObject b k (some v)).objects ∧
      ((∃ v', op = .putObject b k v') ∨ ∃ b' k', op = .copyObject b' k' b k)) ∨
    ∃ b k, w'.objects = (w.setObject b k none).objects ∧ op = .deleteObject b k := by
  by_cases hr : op.row = none
  · obtain ⟨c, hc⟩ := h
    have hw : w' = (effect sv c op w).2 := by rw [hc]
    have hcalled : ∀ u : World, u.objects = w.objects → (called c w u).2.objects = w.objects := by
      intro u hu
      rcases called_snd c w u with he | he <;> rw [he]
      exact hu
    rw [hw]
    cases op
    case create | updateDocument | setClassification | softDelete | restore => cases hr
    case putObject b k v =>
      rcases called_snd c w (w.setObject b k (some v)) with he | he
      · exact .inl (congrArg World.objects he)
      · exact .inr (.inl ⟨b, k, v, congrArg World.objects he, .inl ⟨v, rfl⟩⟩)
    case copyObject b' k' b k =>
      simp only [effect]
      split
      · exact .inl rfl
      · exact .inr (.inl ⟨b, k, _, rfl, .inr ⟨b', k', rfl⟩⟩)
    case deleteObject b k =>
      simp only [effect]
      split
      · exact .inr (.inr ⟨b, k, rfl, rfl⟩)
      · exact .inl rfl
      · exact .inl rfl
    case putExtraction | putNormalization => exact .inl (hcalled _ rfl)
    case audit id event again =>
      have hact : Acts sv (.audit id event again) w r w' := ⟨c, hc⟩
      obtain ⟨-, a, ha⟩ := acts_audit hact
      rw [← hw, ha]
      exact .inl rfl
    case persistChunks id passages title =>
      simp only [effect, World.persistChunks]
      split
      · exact .inl rfl
      · split <;> exact .inl rfl
    case writeEmbeddings vectors =>
      simp only [effect, World.writeEmbeddings]
      split
      · exact .inl rfl
      · split <;> exact .inl rfl
    case embedDocument id texts =>
      simp only [effect]
      split <;> exact .inl rfl
    all_goals exact .inl rfl
  · obtain ⟨t, rfl⟩ := acts_of_row h hr
    exact .inl rfl

theorem raw_grows {r : Except Exn op.Resp} (hop : KeepsFiles op) (h : Acts sv op w r w') :
    RawGrows w w' := by
  have hset : ∀ {b k v}, w'.objects = (w.setObject b k v).objects → b = .quarantine ∨ v ≠ none →
      RawGrows w w' := fun he hb k' hk' => by
    rw [he]
    exact setObject_raw_grows hb k' hk'
  rcases acts_objects h with he | ⟨b, k, v, he, -⟩ | ⟨b, k, he, rfl⟩
  · exact fun k hk => by rwa [he]
  · exact hset he (.inr (Option.some_ne_none v))
  · exact hset he (.inl hop)

/-- A write of a row that claims no file keeps the invariant. -/
theorem kept_of_write {doc : Document} {t' : Documents} (hk : Kept w) (hu : Unpromoted doc)
    (hother : ∀ id, id ≠ doc.id → t'.get id = w.documents.get id)
    (hself : ∀ r, t'.get doc.id = some r → r.status = doc.status ∧ r.checksum = doc.checksum ∧
      r.rawPath = doc.rawPath) : Kept { w with documents := t' } := by
  intro id r hr
  by_cases hid : id = doc.id
  · subst hid
    obtain ⟨hs, hc, hp⟩ := hself r hr
    exact hu.kept _ hs hc hp
  · have hr' : t'.get id = some r := hr
    rw [hother id hid] at hr'
    exact (hk id r hr').mono fun _ ho => ho

theorem kept_of_acts {r : Except Exn op.Resp} (hop : KeepsFiles op) (h : Acts sv op w r w')
    (hk : Kept w) : Kept w' := by
  have hraw := raw_grows hop h
  by_cases hr : op.row = none
  · intro id q hq
    rw [World.doc, documents_of_acts h hr] at hq
    exact (hk id q hq).mono hraw
  · cases op
    case create doc =>
      rcases acts_create.mp h with ⟨-, -, rfl⟩ | ⟨t, ht, -, rfl⟩
      · exact hk
      · refine kept_of_write hk (show Unpromoted doc.created from hop) ?_ ?_
        · intro id hid
          rw [Documents.insert_get ht, if_neg (Ne.symm hid), Option.or_none]
        · intro q hq
          rw [Documents.insert_get_eq ht hq]
          exact ⟨rfl, rfl, rfl⟩
    case updateDocument doc =>
      rcases acts_updateDocument.mp h with ⟨-, -, rfl⟩ | ⟨t, ht, -, rfl⟩
      · exact hk
      · exact kept_of_write hk hop (fun _ hid => Documents.updateDocument_get_other ht hid)
          (fun _ hq => Documents.updateDocument_get_eq ht hq)
    case setClassification id tier =>
      obtain ⟨-, rfl⟩ := acts_setClassification.mp h
      intro k q hq
      obtain ⟨q', hq', hs, hc, hp⟩ := setClassification_get hq
      have hk' := hk k q' hq'
      refine ⟨hs ▸ hk'.scanned, fun he => ?_, fun he => ?_, fun he => ?_⟩
      · rw [hc, hp]
        exact hk'.quarantined (hs ▸ he)
      · rw [hp]
        exact hk'.failed (hs ▸ he)
      · obtain ⟨f, hf, ho⟩ := hk'.promoted (hs ▸ he)
        exact ⟨f, hp.trans hf, hraw f ho⟩
    case softDelete => exact absurd hop id
    case restore => exact absurd hop id
    all_goals exact absurd rfl hr

end Step

section Executions

variable {sv : Services} {w w' : World} {d : Document}

/-- What a cut-off run of operations that keep the files leaves. -/
theorem kept_of_visits {α : Type} {p : Stage α} (h : Visits (Acts sv) p w w')
    (hp : p.Sends KeepsFiles (fun _ _ => True)) (hk : Kept w) : Kept w' :=
  h.invariant hp (fun _ _ _ _ hop ha hs => kept_of_acts hop ha hs) hk

theorem kept_of_ends {α : Type} {p : Stage α} {o : Except Exn α} (h : Ends (Acts sv) p w o w')
    (hp : p.Sends KeepsFiles (fun _ _ => True)) (hk : Kept w) : Kept w' :=
  kept_of_visits h.visits hp hk

theorem raw_grows_of_visits {α : Type} {p : Stage α} (h : Visits (Acts sv) p w w')
    (hp : p.Sends KeepsFiles (fun _ _ => True)) : RawGrows w w' :=
  h.invariant (I := fun u : World => RawGrows w u) hp
    (fun _ _ _ _ hop ha hs k hk => raw_grows hop ha k (hs k hk)) fun _ hk => hk

theorem receive_keeps (id : DocumentId) (filename : String) (data : Bytes)
    (request : UploadRequest) (mimeType : String) :
    (UploadService.receive id filename data request mimeType).Sends KeepsFiles
      (fun _ _ => True) := by
  refine sends_bind (sends_perform rfl) fun _ => ?_
  refine sends_bind (sends_perform (.inl ⟨rfl, rfl, rfl⟩)) fun _ => ?_
  refine sends_bind (sends_perform trivial) fun _ => ?_
  exact sends_bind (sends_perform trivial) fun _ => trivial

theorem escalate_keeps (canonical : Document) (incoming : Option Classification) :
    (escalateTierIfStricter canonical incoming).Sends KeepsFiles (fun _ _ => True) := by
  unfold escalateTierIfStricter
  split
  · trivial
  · split
    · refine sends_bind (sends_perform trivial) fun _ => ?_
      exact sends_bind (sends_perform trivial) fun _ => trivial
    · trivial

theorem duplicate_keeps (doc : Document) (key : ObjectKey) (sha256 : Sha256)
    (existing : Document) :
    (ScanJobHandler.duplicate doc key sha256 existing).Sends KeepsFiles (fun _ _ => True) := by
  refine sends_bind (escalate_keeps _ _) fun _ => ?_
  refine sends_bind (sends_perform (.inr (.inr (.inr rfl)))) fun _ => ?_
  refine sends_bind (sends_perform rfl) fun _ => ?_
  exact sends_bind (sends_perform trivial) fun _ => trivial

theorem reject_keeps (doc : Document) (v : ValidationResult) :
    (reject doc v).Sends KeepsFiles (fun _ _ => True) := by
  refine sends_bind (sends_perform (.inr (.inr (.inl rfl)))) fun _ => ?_
  refine sends_bind (sends_perform trivial) fun _ => ?_
  exact sends_bind (sends_perform rfl) fun _ => trivial

theorem moveToRaw_keeps (key rawKey : ObjectKey) :
    (moveToRaw key rawKey).Sends KeepsFiles (fun _ _ => True) := by
  refine sends_bind (sends_perform trivial) fun there => ?_
  cases there
  · refine sends_bind (sends_perform rfl) fun _ => ?_
    exact sends_bind (sends_perform rfl) fun _ => trivial
  · exact sends_bind (sends_perform rfl) fun _ => trivial

theorem escalateWinner_keeps (doc : Document) (canonical : Option Document) :
    (escalateWinner doc canonical).Sends KeepsFiles (fun _ _ => True) := by
  unfold escalateWinner
  split
  · trivial
  · split
    · trivial
    · exact sends_bind (escalate_keeps _ _) fun _ => trivial

theorem lostRace_keeps (doc : Document) (key : ObjectKey) (sha256 : Sha256) :
    (lostRace doc key sha256).Sends KeepsFiles (fun _ _ => True) := by
  refine sends_bind (sends_perform (.inr (.inr (.inr rfl)))) fun _ => ?_
  refine sends_bind (sends_perform trivial) fun canonical => ?_
  refine sends_bind (escalateWinner_keeps _ _) fun _ => ?_
  exact sends_bind (sends_perform trivial) fun _ => trivial

theorem handOver_keeps (doc : Document) (key : ObjectKey) (v : ValidationResult) :
    (handOver doc key v).Sends KeepsFiles (fun _ _ => True) := by
  refine sends_bind (sends_perform trivial) fun _ => ?_
  refine sends_bind (sends_perform trivial) fun _ => ?_
  exact sends_bind (sends_perform trivial) fun _ => trivial

/-- A move that is reported as done has put the file into the raw bucket. -/
theorem raw_of_moveToRaw {key rawKey : ObjectKey}
    (h : Ends (Acts sv) (moveToRaw key rawKey) w (.ok ()) w') : w'.objects .raw rawKey ≠ none := by
  unfold moveToRaw at h
  rcases ends_send_bind.mp h with ⟨e, -, he⟩ | ⟨there, u, ⟨c, hc⟩, h⟩
  · cases he
  · simp only [effect, Prod.mk.injEq, Except.ok.injEq] at hc
    obtain ⟨hthere, rfl⟩ := hc
    cases there with
    | true =>
      simp only [if_true] at h
      rcases ends_send_bind.mp h with ⟨e, -, he⟩ | ⟨b, v, hv, h⟩
      · cases he
      · obtain ⟨-, rfl⟩ := ends_ret.mp h
        refine raw_grows (show KeepsFiles (.deleteObject .quarantine key) from rfl) hv rawKey ?_
        simp only [Bool.and_eq_true] at hthere
        exact Option.isSome_iff_ne_none.mp hthere.2
    | false =>
      simp only [Bool.false_eq_true, if_false] at h
      rcases ends_send_bind.mp h with ⟨e, -, he⟩ | ⟨b, v, ⟨c', hc'⟩, h⟩
      · cases he
      · rcases ends_send_bind.mp h with ⟨e, -, he⟩ | ⟨b', v', hv', h⟩
        · cases he
        · obtain ⟨-, rfl⟩ := ends_ret.mp h
          refine raw_grows (show KeepsFiles (.deleteObject .quarantine key) from rfl) hv' rawKey ?_
          simp only [effect] at hc'
          split at hc'
          · cases hc'
          · obtain ⟨-, rfl⟩ := Prod.mk.inj hc'
            rw [setObject_objects_self]
            exact Option.some_ne_none _

theorem kept_of_promoted {doc row : Document} {v : ValidationResult} {t : Documents}
    (hk : Kept w) (hraw : w.objects .raw (buildRawKey v.sha256 doc.mimeType) ≠ none)
    (hr : w.doc doc.id = some row)
    (ht : w.documents.updateDocument (promoted doc v) = some t) :
    Kept { w with documents := t } := by
  intro id r hdoc
  have hdoc' : t.get id = some r := hdoc
  by_cases hid : id = doc.id
  · subst hid
    have hrow : t.get doc.id = some ((promoted doc v).writeBack row) :=
      Documents.updateDocument_get ht hr
    obtain rfl := Option.some.inj (hrow.symm.trans hdoc')
    refine ⟨by simp [Document.writeBack, promoted], ?_, ?_, fun _ => ⟨_, rfl, hraw⟩⟩
    · intro he
      cases he
    · intro he
      cases he
  · rw [Documents.updateDocument_get_other ht hid] at hdoc'
    exact (hk id r hdoc').mono fun _ ho => ho

/-- No other active document has the hash. -/
def HashFree (w : World) (id : DocumentId) (checksum : Option Sha256) : Prop :=
  ∀ e ∈ w.documents.rows, e.id ≠ id → e.active = true → e.checksum ≠ checksum

theorem hashFree_of_lookup {id : DocumentId} {sha256 : Sha256}
    (h : ∀ e, w.documents.getByChecksum sha256 = some e → e.id = id) :
    HashFree w id (some sha256) := by
  intro e he hne ha hc
  exact hne (h e (Documents.getByChecksum_eq_some (Documents.get_of_mem he) hc ha))

/-- How far a promotion gets: cut off at the move, failed there, or recorded. The index does not
refuse the row, since the hash was looked up before. -/
theorem promote_cases {doc row : Document} {key : ObjectKey} {v : ValidationResult}
    (h : Visits (Acts sv) (promote doc key v) w w') (hr : w.doc doc.id = some row)
    (hfree : HashFree w doc.id doc.checksum) :
    Visits (Acts sv) (moveToRaw key (buildRawKey v.sha256 doc.mimeType)) w w' ∨
    (∃ e u response, Ends (Acts sv) (moveToRaw key (buildRawKey v.sha256 doc.mimeType)) w
        (.error e) u ∧ u.documents = w.documents ∧
      Visits (Acts sv) (send (.updateDocument (unpromoted doc)) >>= fun _ =>
        (pure response : Stage UploadResponse)) u w') ∨
    ∃ u, Ends (Acts sv) (moveToRaw key (buildRawKey v.sha256 doc.mimeType)) w (.ok ()) u ∧
      u.documents = w.documents ∧
      (w' = u ∨ ∃ t, u.documents.updateDocument (promoted doc v) = some t ∧
        Visits (Acts sv) (handOver doc key v) { u with documents := t } w') := by
  unfold promote at h
  rcases visits_attempt_bind h with h | ⟨moved, u, hu, h⟩
  · exact .inl h
  · have hdocs : u.documents = w.documents :=
      hu.invariant (I := fun s : World => s.documents = w.documents) moveToRaw_sends
        (fun _ _ _ _ hop ha hs => (documents_of_acts ha hop).trans hs) rfl
    have hru : u.doc doc.id = some row := by rw [World.doc, hdocs]; exact hr
    cases moved with
    | error e => exact .inr (.inl ⟨e, u, _, hu, hdocs, h⟩)
    | ok _ =>
      have hup : ∀ {r : Except Exn Unit} {s : World},
          Acts sv (.updateDocument (promoted doc v)) u r s → r = .ok () ∧
            ∃ t, u.documents.updateDocument (promoted doc v) = some t ∧
              s = { u with documents := t } := by
        intro r s hs
        rcases acts_updateDocument.mp hs with ⟨hn, -, -⟩ | ⟨t, ht, hok, rfl⟩
        · obtain ⟨-, e, he, hne, hea, -, hc⟩ := Documents.updateDocument_eq_none hn hru
          exact absurd hc (hfree e (hdocs ▸ he) hne hea)
        · exact ⟨hok, t, ht, rfl⟩
      refine .inr (.inr ⟨u, hu, hdocs, ?_⟩)
      rcases visits_attempt_bind h with h | ⟨r, s, hs, h⟩
      · rcases visits_perform h with rfl | ⟨r, hs⟩
        · exact .inl rfl
        · obtain ⟨-, t, ht, rfl⟩ := hup hs
          exact .inr ⟨t, ht, .start _ _⟩
      · obtain ⟨rfl, t, ht, rfl⟩ := hup (ends_perform.mp hs)
        exact .inr ⟨t, ht, h⟩

/-- What a promotion leaves in the row of its document. -/
theorem promote_row {doc row : Document} {key : ObjectKey} {v : ValidationResult}
    (h : Visits (Acts sv) (promote doc key v) w w') (hr : w.doc doc.id = some row)
    (hfree : HashFree w doc.id doc.checksum) :
    w'.doc doc.id = some row ∨ w'.doc doc.id = some ((unpromoted doc).writeBack row) ∨
      w'.doc doc.id = some ((promoted doc v).writeBack row) := by
  rcases promote_cases h hr hfree with h | ⟨e, u, response, -, hdocs, h⟩ | ⟨u, -, hdocs, h⟩
  · left
    exact (doc_of_visits h (moveToRaw_sends.mono fun op hop => by simp [hop])).trans hr
  · have hru : u.doc doc.id = some row := by rw [World.doc, hdocs]; exact hr
    rcases writeBack_of_visits h hru trivial with hw | hw
    · exact .inl hw
    · exact .inr (.inl hw)
  · have hru : u.doc doc.id = some row := by rw [World.doc, hdocs]; exact hr
    rcases h with rfl | ⟨t, ht, h⟩
    · exact .inl hru
    · right
      right
      exact (doc_of_visits h (handOver_sends doc key v _)).trans
        (Documents.updateDocument_get ht hru)

/-- A promotion leaves every row true of its file, and makes no duplicate. -/
theorem promote_kept {doc row : Document} {key : ObjectKey} {v : ValidationResult}
    (h : Visits (Acts sv) (promote doc key v) w w') (hk : Kept w)
    (hr : w.doc doc.id = some row) (hraw : doc.rawPath = none)
    (hfree : HashFree w doc.id doc.checksum) :
    Kept w' ∧ ∃ r, w'.doc doc.id = some r ∧ (r.status = .duplicate → row.status = .duplicate) := by
  constructor
  · rcases promote_cases h hr hfree with h | ⟨e, u, response, hu, -, h⟩ | ⟨u, hu, hdocs, h⟩
    · exact kept_of_visits h (moveToRaw_keeps _ _) hk
    · refine kept_of_visits h ?_ (kept_of_ends hu (moveToRaw_keeps _ _) hk)
      exact sends_bind (sends_perform (.inr (.inl ⟨rfl, hraw⟩))) fun _ => trivial
    · have hku := kept_of_ends hu (moveToRaw_keeps _ _) hk
      have hru : u.doc doc.id = some row := by rw [World.doc, hdocs]; exact hr
      rcases h with rfl | ⟨t, ht, h⟩
      · exact hku
      · exact kept_of_visits h (handOver_keeps doc key v)
          (kept_of_promoted hku (raw_of_moveToRaw hu) hru ht)
  · rcases promote_row h hr hfree with hw | hw | hw
    · exact ⟨row, hw, fun hs => hs⟩
    · exact ⟨_, hw, fun hs => by cases hs⟩
    · exact ⟨_, hw, fun hs => by cases hs⟩

/-- The document `get_by_checksum` answers when the file of this one is scanned. -/
def matched (sv : Services) (w : World) (id : DocumentId) : Option Document := do
  let d ← w.doc id
  let data ← w.objects .quarantine (quarantineKeyFor d)
  w.documents.getByChecksum (sv.validateDocument data d.mimeType).sha256

/-- The scan has taken the branch of duplicates, against the document matched. -/
def Drops (sv : Services) (w w' : World) (id : DocumentId) : Prop :=
  ∃ doc key sha256 e, matched sv w id = some e ∧ doc.id = id ∧ e.id ≠ id ∧
    Visits (Acts sv) (ScanJobHandler.duplicate doc key sha256 e) w w'

theorem dedup_kept {doc row : Document} {key : ObjectKey} {v : ValidationResult}
    (h : Visits (Acts sv) (dedupAndPromote doc key v none) w w') (hk : Kept w)
    (hr : w.doc doc.id = some row) (hc : doc.checksum = some v.sha256)
    (hraw : doc.rawPath = none) :
    Kept w' ∧ ((∃ e, w.documents.getByChecksum v.sha256 = some e ∧ e.id ≠ doc.id ∧
        Visits (Acts sv) (ScanJobHandler.duplicate doc key v.sha256 e) w w') ∨
      ∃ r, w'.doc doc.id = some r ∧ (r.status = .duplicate → row.status = .duplicate)) := by
  have h' := visits_getByChecksum_bind h
  have hpromote : HashFree w doc.id (some v.sha256) → Visits (Acts sv) (promote doc key v) w w' →
      Kept w' ∧ ∃ r, w'.doc doc.id = some r ∧ (r.status = .duplicate → row.status = .duplicate) :=
    fun hfree hp => promote_kept hp hk hr hraw (hc.symm ▸ hfree)
  cases hx : w.documents.getByChecksum v.sha256 with
  | none =>
    simp only [hx] at h'
    obtain ⟨hkept, hrow⟩ := hpromote
      (hashFree_of_lookup fun e he => by rw [hx] at he; cases he) h'
    exact ⟨hkept, .inr hrow⟩
  | some e =>
    simp only [hx] at h'
    split at h'
    · rename_i hne
      exact ⟨kept_of_visits h' (duplicate_keeps _ _ _ _) hk, .inl ⟨e, rfl, hne, h'⟩⟩
    · rename_i hid
      obtain ⟨hkept, hrow⟩ := hpromote (hashFree_of_lookup fun f hf => by
        rw [hx] at hf
        exact Option.some.inj hf ▸ not_not.mp hid) h'
      exact ⟨hkept, .inr hrow⟩

/-- What a scan keeps, and the only way it marks a document a duplicate. -/
theorem process_kept {id : DocumentId} (h : Visits (Acts sv) (process sv id none) w w')
    (hk : Kept w) : Kept w' ∧ (Drops sv w w' id ∨
      ∀ r, w'.doc id = some r → r.status = .duplicate →
        ∃ d, w.doc id = some d ∧ d.status = .duplicate) := by
  have h' := visits_getById_bind h
  cases hd : w.doc id with
  | none =>
    simp only [hd] at h'
    obtain rfl := visits_pure h'
    exact ⟨hk, .inr fun r hr => by rw [hd] at hr; cases hr⟩
  | some d =>
    obtain rfl : d.id = id := Documents.get_id hd
    have hstay : ∀ {r : Document}, w'.doc d.id = some r →
        (r.status = .duplicate → d.status = .duplicate) →
        ∀ r, w'.doc d.id = some r → r.status = .duplicate →
          ∃ d', some d = some d' ∧ d'.status = .duplicate := by
      intro r hr hs r' hr' hs'
      rw [hr] at hr'
      exact ⟨d, rfl, hs (Option.some.inj hr' ▸ hs')⟩
    simp only [hd] at h'
    split at h'
    · obtain rfl := visits_pure h'
      exact ⟨hk, .inr (hstay hd fun hs => hs)⟩
    · rename_i hs
      -- of the statuses scans bring, the guard leaves the two that have no file in raw
      have hraw : d.rawPath = none := by
        have hrow := hk d.id d hd
        have hst := hrow.scanned
        simp only [promotedStatuses, finalizedStatuses, List.mem_cons, not_or] at hs hst
        rcases hst with he | he | he | he | he | he
        · exact (hrow.quarantined he).2
        · exact hrow.failed he
        · exact absurd he hs.1.1
        · exact absurd he hs.2.1
        · exact absurd he hs.2.2.1
        · cases he
      rcases visits_attempt_getObject_bind h' with ⟨e, h'⟩ | ⟨data, hobj, h'⟩
      · refine ⟨kept_of_visits h' ?_ hk, .inr ?_⟩
        · exact sends_bind (sends_perform (.inr (.inl ⟨rfl, hraw⟩))) fun _ => trivial
        · have hw : w'.doc d.id = some d ∨ w'.doc d.id = some ((unreadable d).writeBack d) :=
            writeBack_of_visits h' hd trivial
          rcases hw with hw | hw
          · exact hstay hw fun hs => hs
          · exact hstay hw fun hs => by cases hs
      · simp only at h'
        split at h'
        · obtain ⟨hkept, ⟨e, he, hne, hdrop⟩ | ⟨r, hr, hst⟩⟩ := dedup_kept h' hk hd rfl hraw
          · refine ⟨hkept, .inl ⟨{ d with checksum := some (sv.validateDocument data d.mimeType).sha256 },
              quarantineKeyFor d, _, e, ?_, rfl, hne, hdrop⟩⟩
            simp only [matched, hd, Option.bind_eq_bind, Option.bind_some, hobj]
            exact he
          · exact ⟨hkept, .inr (hstay hr hst)⟩
        · refine ⟨kept_of_visits h' (reject_keeps _ _) hk, .inr ?_⟩
          have hw := writeBack_of_visits h' hd (by
            refine sends_bind (sends_perform (by simp [Op.row])) fun _ => ?_
            exact sends_bind (sends_perform (by simp [Op.row])) fun _ => trivial)
          rcases hw with hw | hw
          · exact hstay hw fun hs => hs
          · exact hstay hw fun hs => by cases hs

end Executions

variable {sv : Services} {w w' : World} {id : DocumentId}

theorem scanned_kept (h : Scanned sv w) : Kept w := by
  induction h with
  | start h =>
    intro id r hr
    have hmem := Documents.mem_of_get hr
    rw [h] at hmem
    cases hmem
  | receive _ id filename data request mimeType hr ih =>
    exact kept_of_visits hr (receive_keeps id filename data request mimeType) ih
  | scan _ id hs ih => exact (process_kept (processJob_scan_visits hs) ih).1

/-- Dropping a copy may raise the tier of the document that stays, and nothing else. -/
theorem duplicate_canonical {doc e : Document} {key : ObjectKey} {sha256 : Sha256}
    (h : Visits (Acts sv) (ScanJobHandler.duplicate doc key sha256 e) w w')
    (he : w.doc e.id = some e) (hne : e.id ≠ doc.id) :
    ∃ row, w'.doc e.id = some row ∧ row.rawPath = e.rawPath := by
  have hsends : (ScanJobHandler.duplicate doc key sha256 e).Sends
      (fun op => op.row ≠ some e.id ∨ ∃ tier, op = .setClassification e.id tier)
      (fun _ _ => True) := by
    refine sends_bind ?_ fun _ => ?_
    · unfold escalateTierIfStricter
      split
      · trivial
      · split
        · refine sends_bind (sends_perform (.inr ⟨_, rfl⟩)) fun _ => ?_
          exact sends_bind (sends_perform (.inl (by simp [Op.row]))) fun _ => trivial
        · trivial
    · refine sends_bind (sends_perform (.inl (by simpa [Op.row] using Ne.symm hne))) fun _ => ?_
      refine sends_bind (sends_perform (.inl (by simp [Op.row]))) fun _ => ?_
      exact sends_bind (sends_perform (.inl (by simp [Op.row]))) fun _ => trivial
  refine h.invariant (I := fun u : World => ∃ row, u.doc e.id = some row ∧
    row.rawPath = e.rawPath) hsends ?_ ⟨e, he, rfl⟩
  rintro op u r u' hop ha ⟨row, hrow, hraw⟩
  rcases hop with hop | ⟨tier, rfl⟩
  · exact ⟨row, (doc_of_acts ha hop).trans hrow, hraw⟩
  · obtain ⟨-, rfl⟩ := acts_setClassification.mp ha
    cases hu : (u.setClassification e.id tier).doc e.id with
    | none =>
      unfold World.setClassification at hu
      split at hu
      · rw [hrow] at hu
        cases hu
      · rename_i t ht
        have hu' : t.get e.id = none := hu
        rw [Documents.modify_get_self ht hrow] at hu'
        cases hu'
    | some row' =>
      obtain ⟨q, hq, -, -, hp⟩ := setClassification_get hu
      obtain rfl := Option.some.inj (hrow.symm.trans hq)
      exact ⟨row', rfl, hp.trans hraw⟩

/-- The document has a promoted file, and the file is there. -/
def ContentKept (w : World) (id : DocumentId) : Prop :=
  ∃ row k, w.doc id = some row ∧ row.rawPath = some k ∧ w.objects .raw k ≠ none

theorem matched_status {e : Document} (hk : Kept w) (he : matched sv w id = some e) :
    w.doc e.id = some e ∧ (e.status = .validationFailed ∨ e.status = .validated) := by
  obtain ⟨d, -, he⟩ := Option.bind_eq_some_iff.mp he
  obtain ⟨data, -, he⟩ := Option.bind_eq_some_iff.mp he
  obtain ⟨hrow, hc, ha⟩ := Documents.getByChecksum_spec he
  have hrow' : w.doc e.id = some e := hrow
  refine ⟨hrow', ?_⟩
  have hkept := hk e.id e hrow'
  have hst := hkept.scanned
  simp only [List.mem_cons, List.not_mem_nil, or_false] at hst
  rcases hst with hs | hs | hs | hs | hs
  · rw [(hkept.quarantined hs).1] at hc
    cases hc
  · exact .inl hs
  · exact .inr hs
  · rw [Document.active, hs] at ha
    cases ha
  · rw [Document.active, hs] at ha
    cases ha

/-- A scan that marks a document a duplicate leaves its content with the document it was
matched against, exactly when that one is not itself a promotion that failed. -/
theorem duplicate_content_iff (h : Scanned sv w)
    (hscan : Visits (Acts sv) (processJob sv .scan id) w w')
    (hbefore : ∀ d, w.doc id = some d → d.status ≠ .duplicate)
    (hafter : ∃ r, w'.doc id = some r ∧ r.status = .duplicate) :
    ∃ e, matched sv w id = some e ∧ e.id ≠ id ∧
      (ContentKept w' e.id ↔ e.status ≠ .validationFailed) := by
  have hk := scanned_kept h
  obtain ⟨r, hr, hst⟩ := hafter
  obtain ⟨doc, key, sha256, e, hm, rfl, hne, hdrop⟩ : Drops sv w w' id := by
    refine (process_kept (processJob_scan_visits hscan) hk).2.resolve_right fun hno => ?_
    obtain ⟨d, hd, hds⟩ := hno r hr hst
    exact hbefore d hd hds
  refine ⟨e, hm, hne, ?_⟩
  obtain ⟨he, hstatus⟩ := matched_status hk hm
  obtain ⟨row, hrow, hraw⟩ := duplicate_canonical hdrop he hne
  constructor
  · rintro ⟨row', k, hrow', hk', -⟩ hs
    obtain rfl := Option.some.inj (hrow.symm.trans hrow')
    rw [hraw, (hk e.id e he).failed hs] at hk'
    cases hk'
  · intro hs
    obtain ⟨k, hpath, hobj⟩ := (hk e.id e he).promoted (hstatus.resolve_left hs)
    exact ⟨row, k, hrow, hraw.trans hpath,
      raw_grows_of_visits hdrop (duplicate_keeps _ _ _ _) k hobj⟩

/-- No document is marked a duplicate of one whose file was never promoted. -/
def DuplicateKeepsContent : Prop :=
  ∀ (sv : Services) (w w' : World) (id : DocumentId), Scanned sv w →
    Visits (Acts sv) (processJob sv .scan id) w w' →
    (∀ d, w.doc id = some d → d.status ≠ .duplicate) →
    (∃ r, w'.doc id = some r ∧ r.status = .duplicate) →
    ∃ e, matched sv w id = some e ∧ ContentKept w' e.id

/-- One upload after another of the same byte. -/
def uploaded (id : DocumentId) (w : World) : World :=
  (run (effect plainServices) (fun _ => .fine)
    (UploadService.receive id "memo.pdf" [37] plainRequest "application/pdf") w).2

def scanned (luck : Nat → Luck) (id : DocumentId) (w : World) : World :=
  (run (effect plainServices) luck (processJob plainServices .scan id) w).2

/-- The copy to the raw bucket is the fifth operation of a scan. -/
def copyTimesOut (n : Nat) : Luck := if n = 4 then .fails "timeout" else .fine

theorem scanned_scan (luck : Nat → Luck) (id : DocumentId) (w : World) :
    Visits (Acts plainServices) (processJob plainServices .scan id) w (scanned luck id w) :=
  (ends_run (fun n _ _ => ⟨luck n, rfl⟩) _ _).visits

/-- Two uploads, the first of them scanned. -/
theorem scanned_twoUploads (luck : Nat → Luck) :
    Scanned plainServices (uploaded 1 (scanned luck 0 (uploaded 0 World.empty))) := by
  have hup : ∀ id w, Scanned plainServices w → Scanned plainServices (uploaded id w) :=
    fun id w h => h.receive id _ _ _ _ (ends_run (fun _ _ _ => ⟨.fine, rfl⟩) _ _).visits
  exact hup 1 _ ((hup 0 _ (.start rfl)).scan 0 (scanned_scan luck 0 _))

/-- The first scan, as it went, with the second upload after it. -/
def beforeSecond (luck : Nat → Luck) : World :=
  uploaded 1 (scanned luck 0 (uploaded 0 World.empty))

theorem status_eq {s : DocumentStatus} {d : Document} (hd : w.doc id = some d)
    (h : (w.doc id).map Document.status = some s) : d.status = s := by
  rw [hd] at h
  exact Option.some.inj h

theorem second_quarantined (luck : Nat → Luck)
    (h : ((beforeSecond luck).doc 1).map Document.status = some .quarantined) :
    ∀ d, (beforeSecond luck).doc 1 = some d → d.status ≠ .duplicate := by
  intro d hd hs
  cases hs.symm.trans (status_eq hd h)

/-- A copy of a promoted document is dropped for it. -/
theorem duplicate_of_promoted :
    ∃ e, matched plainServices (beforeSecond fun _ => .fine) 1 = some e ∧ e.id ≠ 1 ∧
      (ContentKept (scanned (fun _ => .fine) 1 (beforeSecond fun _ => .fine)) e.id ↔
        e.status ≠ .validationFailed) :=
  duplicate_content_iff (scanned_twoUploads _) (scanned_scan _ _ _)
    (second_quarantined _ (by decide +kernel))
    (Option.map_eq_some_iff.mp (by decide +kernel))

/-- The copy of the first file times out and its row keeps the hash; the second upload is
dropped as a duplicate of it, with nothing in the raw bucket. -/
theorem duplicate_of_unpromoted : ¬ DuplicateKeepsContent := by
  intro h
  obtain ⟨e, he, row, k, hrow, hk, -⟩ := h plainServices (beforeSecond copyTimesOut)
    (scanned (fun _ => .fine) 1 (beforeSecond copyTimesOut)) 1 (scanned_twoUploads _)
    (scanned_scan _ _ _) (second_quarantined _ (by decide +kernel))
    (Option.map_eq_some_iff.mp (by decide +kernel))
  have hid : (matched plainServices (beforeSecond copyTimesOut) 1).map Document.id = some 0 := by
    decide +kernel
  have hraw : ((scanned (fun _ => .fine) 1 (beforeSecond copyTimesOut)).doc 0).map
      Document.rawPath = some none := by decide +kernel
  rw [he] at hid
  rw [Option.some.inj hid] at hrow
  rw [hrow, Option.map_some, hk] at hraw
  cases Option.some.inj hraw

end KnowledgeBase
