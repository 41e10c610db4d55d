import KnowledgeBase.FinalErasure

/-! Where what is stored comes from: nothing reaches the raw bucket but files that were uploaded
and passed validation, each under the hash of its content, and every stored passage was made
from one of them. -/

namespace KnowledgeBase

open Program RunningState Transition

/-- A file as it was uploaded, with the type it was taken for. -/
structure Receipt where
  data : Bytes
  mimeType : String

namespace Receipt

def verdict (sv : Services) (u : Receipt) : ValidationResult :=
  sv.validateDocument u.data u.mimeType

def rawKey (sv : Services) (u : Receipt) : ObjectKey := buildRawKey (u.verdict sv).sha256 u.mimeType

end Receipt

/-- What was uploaded under each id. -/
abbrev Receipts := DocumentId → Option Receipt

/-- The row says of its file what is so. -/
structure Truthful (sv : Services) (u : Receipt) (doc : Document) : Prop where
  mimeType : doc.mimeType = u.mimeType
  quarantinePath : ∀ key, doc.quarantinePath = some key →
    key = buildQuarantineKey doc.id u.mimeType
  checksum : ∀ sha256, doc.checksum = some sha256 → sha256 = (u.verdict sv).sha256
  rawPath : ∀ key, doc.rawPath = some key → key = u.rawKey sv ∧ (u.verdict sv).isValid = true

/-- What extraction makes, for this document, of a validated upload that has the hash of the
document's own. -/
def Extracted (sv : Services) (up : Receipts) (id : DocumentId) (r : ExtractionResult) : Prop :=
  ∃ u v k, up id = some u ∧ up k = some v ∧ (v.verdict sv).isValid = true ∧
    v.rawKey sv = u.rawKey sv ∧ sv.extract id v.data u.mimeType = .ok r

def Normalized (sv : Services) (up : Receipts) (id : DocumentId) (n : NormalizationResult) :
    Prop :=
  ∃ r, Extracted sv up id r ∧ sv.normalize r = n ∧ n.quality.passed = true

/-- All that is stored goes back to the uploads. -/
structure Vouched (sv : Services) (up : Receipts) (w : World) : Prop where
  rows : ∀ id row, w.doc id = some row → ∃ u, up id = some u ∧ Truthful sv u row
  quarantine : ∀ key data, w.objects .quarantine key = some data →
    ∃ id u, up id = some u ∧ key = buildQuarantineKey id u.mimeType ∧ data = u.data
  raw : ∀ key data, w.objects .raw key = some data →
    ∃ id u, up id = some u ∧ key = u.rawKey sv ∧ (u.verdict sv).isValid = true ∧ data = u.data
  extracted : ∀ id r, w.extracted (artifactKeyFor id) = some r → Extracted sv up id r
  normalized : ∀ id n, w.normalized (artifactKeyFor id) = some n → Normalized sv up id n
  chunks : ∀ c ∈ w.chunks, ∃ n, Normalized sv up c.documentId n ∧ c.passage ∈ sv.chunk n

/-- The operations that store nothing else. -/
def Vouches (sv : Services) (up : Receipts) : Op → Prop
  | .create doc | .updateDocument doc => ∃ u, up doc.id = some u ∧ Truthful sv u doc
  | .putObject b key data => b = .quarantine ∧
      ∃ id u, up id = some u ∧ key = buildQuarantineKey id u.mimeType ∧ data = u.data
  | .copyObject b key b' key' => b = .quarantine ∧ b' = .raw ∧
      ∃ id u, up id = some u ∧ key = buildQuarantineKey id u.mimeType ∧ key' = u.rawKey sv ∧
        (u.verdict sv).isValid = true
  | .putExtraction key r => ∃ id, key = artifactKeyFor id ∧ Extracted sv up id r
  | .putNormalization key n => ∃ id, key = artifactKeyFor id ∧ Normalized sv up id n
  | .persistChunks id passages _ => ∃ n, Normalized sv up id n ∧ passages = sv.chunk n
  | _ => True

/-- An answer of a world in which all goes back to the uploads. -/
def Told (sv : Services) (up : Receipts) (op : Op) (r : Except Exn op.Resp) : Prop :=
  ∃ w w', Vouched sv up w ∧ Acts sv op w r w'

variable {sv : Services} {up : Receipts} {w w' : World} {u : Receipt} {doc row : Document}
  {id : DocumentId}

theorem quarantineKey_inj {id k : DocumentId} {m m' : String}
    (h : buildQuarantineKey id m = buildQuarantineKey k m') : id = k := by
  simp only [buildQuarantineKey, ObjectKey.ofDocument.injEq] at h
  exact h.1

theorem artifactKeyFor_inj {id k : DocumentId} (h : artifactKeyFor id = artifactKeyFor k) :
    id = k := by
  simp only [artifactKeyFor, ObjectKey.ofDocument.injEq] at h
  exact h.1

namespace Truthful

theorem received (sv : Services) (id : DocumentId) (filename : String) (request : UploadRequest)
    (u : Receipt) :
    Truthful sv u (UploadService.received id filename u.data request u.mimeType) where
  mimeType := rfl
  quarantinePath _ h := (Option.some.inj h).symm
  checksum _ h := nomatch h
  rawPath _ h := nomatch h

theorem quarantineKeyFor_eq (h : Truthful sv u doc) :
    quarantineKeyFor doc = buildQuarantineKey doc.id u.mimeType := by
  unfold quarantineKeyFor
  cases hq : doc.quarantinePath with
  | none => rw [Option.getD_none, h.mimeType]
  | some key => exact h.quarantinePath key hq

/-- Only these columns speak of the file. -/
theorem of_columns (h : Truthful sv u doc) (hid : row.id = doc.id)
    (hmime : row.mimeType = doc.mimeType)
    (hquarantine : row.quarantinePath = none ∨ row.quarantinePath = doc.quarantinePath)
    (hchecksum : row.checksum = none ∨ row.checksum = doc.checksum)
    (hraw : row.rawPath = none ∨ row.rawPath = doc.rawPath) : Truthful sv u row where
  mimeType := hmime.trans h.mimeType
  quarantinePath key hk := by
    rcases hquarantine with hq | hq
    · rw [hq] at hk
      cases hk
    · rw [hid]
      exact h.quarantinePath key (hq ▸ hk)
  checksum sha256 hs := by
    rcases hchecksum with hc | hc
    · rw [hc] at hs
      cases hs
    · exact h.checksum sha256 (hc ▸ hs)
  rawPath key hk := by
    rcases hraw with hr | hr
    · rw [hr] at hk
      cases hk
    · exact h.rawPath key (hr ▸ hk)

theorem hashed (h : Truthful sv u doc) :
    Truthful sv u { doc with checksum := some (u.verdict sv).sha256 } :=
  { h with checksum := fun _ hs => (Option.some.inj hs).symm }

theorem promoted (h : Truthful sv u doc) (hvalid : (u.verdict sv).isValid = true) :
    Truthful sv u (ScanJobHandler.promoted doc (u.verdict sv)) where
  mimeType := h.mimeType
  quarantinePath _ hk := nomatch hk
  checksum := h.checksum
  rawPath key hk := by
    obtain rfl := Option.some.inj hk
    refine ⟨?_, hvalid⟩
    rw [Receipt.rawKey, h.mimeType]

theorem writeBack (h : Truthful sv u doc) (hid : row.id = doc.id) :
    Truthful sv u (doc.writeBack row) :=
  h.of_columns hid rfl (.inr rfl) (.inr rfl) (.inr rfl)

theorem hidden (h : Truthful sv u row) (now : Nat) : Truthful sv u (row.hidden now) := by
  unfold Document.hidden
  split
  · exact h.of_columns rfl rfl (.inr rfl) (.inr rfl) (.inr rfl)
  · exact h

theorem shown (h : Truthful sv u row) : Truthful sv u row.shown := by
  unfold Document.shown
  split
  · exact h.of_columns rfl rfl (.inr rfl) (.inr rfl) (.inr rfl)
  · exact h

theorem purged (h : Truthful sv u row) (now : Nat) : Truthful sv u (row.purged now) :=
  h.of_columns rfl rfl (.inl rfl) (.inl rfl) (.inl rfl)

theorem purgedDuplicate (h : Truthful sv u row) (now : Nat) :
    Truthful sv u { row.purged now with rawPath := row.rawPath } :=
  h.of_columns rfl rfl (.inl rfl) (.inl rfl) (.inr rfl)

end Truthful

section Operations

theorem setObject_apply (w : World) (b b' : Bucket) (key key' : ObjectKey) (data : Option Bytes) :
    (w.setObject b key data).objects b' key' =
      if b' = b ∧ key' = key then data else w.objects b' key' := by
  by_cases hb : b' = b
  · subst hb
    by_cases hk : key' = key
    · simp [World.setObject, hk]
    · simp [World.setObject, hk]
  · simp [World.setObject, hb]

theorem eq_of_found {β : Type} {c : Luck} {o : Option β} {v : β} (h : found c o = .ok v) :
    o = some v := by
  cases o with
  | none => cases c <;> cases h
  | some v' =>
    cases c with
    | fails m => cases h
    | fine | silent => exact congrArg some (Except.ok.inj h)

/-- A world that holds no more, with rows that say no more of their files. -/
theorem Vouched.shrinks (hw : Vouched sv up w)
    (hrows : ∀ id row', w'.doc id = some row' → ∃ row, w.doc id = some row ∧
      ∀ u, Truthful sv u row → Truthful sv u row')
    (hobjects : ∀ b key data, w'.objects b key = some data → w.objects b key = some data)
    (hextracted : ∀ key r, w'.extracted key = some r → w.extracted key = some r)
    (hnormalized : ∀ key n, w'.normalized key = some n → w.normalized key = some n)
    (hchunks : ∀ c ∈ w'.chunks, ∃ c₀ ∈ w.chunks, c.documentId = c₀.documentId ∧
      c.passage = c₀.passage) : Vouched sv up w' where
  rows id row' hr' := by
    obtain ⟨row, hr, hsay⟩ := hrows id row' hr'
    obtain ⟨u, hu, ht⟩ := hw.rows id row hr
    exact ⟨u, hu, hsay u ht⟩
  quarantine key data hd := hw.quarantine key data (hobjects _ _ _ hd)
  raw key data hd := hw.raw key data (hobjects _ _ _ hd)
  extracted id r hr := hw.extracted id r (hextracted _ _ hr)
  normalized id n hn := hw.normalized id n (hnormalized _ _ hn)
  chunks c hc := by
    obtain ⟨c₀, hc₀, hdoc, hpassage⟩ := hchunks c hc
    obtain ⟨n, hn, hmem⟩ := hw.chunks c₀ hc₀
    exact ⟨n, hdoc ▸ hn, hpassage ▸ hmem⟩

theorem Vouched.of_documents {t : Documents} (hw : Vouched sv up w)
    (hrows : ∀ id row, t.get id = some row → ∃ u, up id = some u ∧ Truthful sv u row) :
    Vouched sv up { w with documents := t } :=
  ⟨hrows, hw.quarantine, hw.raw, hw.extracted, hw.normalized, hw.chunks⟩

/-- Rows of which some columns are changed that say nothing of the file, or cleared. -/
theorem Vouched.of_rows {t : Documents} {g : DocumentId → Document → Document}
    (hw : Vouched sv up w) (hget : ∀ id, t.get id = (w.doc id).map (g id))
    (hg : ∀ id row u, Truthful sv u row → Truthful sv u (g id row)) :
    Vouched sv up { w with documents := t } := by
  refine hw.of_documents fun id row' hr' => ?_
  rw [hget] at hr'
  obtain ⟨row, hr, rfl⟩ := Option.map_eq_some_iff.mp hr'
  obtain ⟨u, hu, ht⟩ := hw.rows id row hr
  exact ⟨u, hu, hg id row u ht⟩

theorem Vouched.removed (hw : Vouched sv up w) (b : Bucket) (key : ObjectKey) :
    Vouched sv up (w.setObject b key none) := by
  refine hw.shrinks (fun _ row' hr' => ⟨row', hr', fun _ ht => ht⟩) ?_ (fun _ _ h => h)
    (fun _ _ h => h) fun c hc => ⟨c, hc, rfl, rfl⟩
  intro b' key' data hd
  rw [setObject_apply] at hd
  split at hd
  · cases hd
  · exact hd

theorem Vouched.quarantined (hw : Vouched sv up w) (hu : up id = some u) :
    Vouched sv up
      (w.setObject .quarantine (buildQuarantineKey id u.mimeType) (some u.data)) where
  rows := hw.rows
  quarantine key data hd := by
    rw [setObject_apply] at hd
    split at hd
    · rename_i hk
      exact ⟨id, u, hu, hk.2, (Option.some.inj hd).symm⟩
    · exact hw.quarantine key data hd
  raw key data hd := by
    rw [setObject_apply, if_neg (fun hk => Bucket.noConfusion hk.1)] at hd
    exact hw.raw key data hd
  extracted := hw.extracted
  normalized := hw.normalized
  chunks := hw.chunks

/-- The copy of a validated upload. -/
theorem Vouched.copied (hw : Vouched sv up w) {key : ObjectKey} {data : Bytes}
    (hu : up id = some u) (hkey : key = buildQuarantineKey id u.mimeType)
    (hvalid : (u.verdict sv).isValid = true) (hread : w.objects .quarantine key = some data) :
    Vouched sv up (w.setObject .raw (u.rawKey sv) (some data)) where
  rows := hw.rows
  quarantine key' data' hd := by
    rw [setObject_apply, if_neg (fun hk => Bucket.noConfusion hk.1)] at hd
    exact hw.quarantine key' data' hd
  raw key' data' hd := by
    rw [setObject_apply] at hd
    split at hd
    · rename_i hk
      obtain ⟨k, v, hv, hk', hdata⟩ := hw.quarantine key data hread
      obtain rfl := quarantineKey_inj (hkey.symm.trans hk')
      obtain rfl := Option.some.inj (hu.symm.trans hv)
      exact ⟨id, u, hu, hk.2, hvalid, (Option.some.inj hd).symm.trans hdata⟩
    · exact hw.raw key' data' hd
  extracted := hw.extracted
  normalized := hw.normalized
  chunks := hw.chunks

theorem Vouched.extractedTo (hw : Vouched sv up w) {r : ExtractionResult}
    (hr : Extracted sv up id r) : Vouched sv up
      { w with extracted := Function.update w.extracted (artifactKeyFor id) (some r) } where
  rows := hw.rows
  quarantine := hw.quarantine
  raw := hw.raw
  extracted k r' hk := by
    simp only [Function.update_apply] at hk
    split at hk
    · rename_i he
      obtain rfl := artifactKeyFor_inj he
      obtain rfl := Option.some.inj hk
      exact hr
    · exact hw.extracted k r' hk
  normalized := hw.normalized
  chunks := hw.chunks

theorem Vouched.normalizedTo (hw : Vouched sv up w) {n : NormalizationResult}
    (hn : Normalized sv up id n) : Vouched sv up
      { w with normalized := Function.update w.normalized (artifactKeyFor id) (some n) } where
  rows := hw.rows
  quarantine := hw.quarantine
  raw := hw.raw
  extracted := hw.extracted
  normalized k n' hk := by
    simp only [Function.update_apply] at hk
    split at hk
    · rename_i he
      obtain rfl := artifactKeyFor_inj he
      obtain rfl := Option.some.inj hk
      exact hn
    · exact hw.normalized k n' hk
  chunks := hw.chunks

theorem Vouched.persisted (hw : Vouched sv up w) {n : NormalizationResult} {title : String}
    (hn : Normalized sv up id n) : Vouched sv up (w.persistChunks id (sv.chunk n) title).2 := by
  unfold World.persistChunks
  split
  · refine ⟨hw.rows, hw.quarantine, hw.raw, hw.extracted, hw.normalized, fun c hc => ?_⟩
    rcases List.mem_append.mp hc with hc | hc
    · exact hw.chunks c (List.mem_filter.mp hc).1
    · obtain ⟨i, hi, rfl⟩ := List.mem_mapIdx.mp hc
      exact ⟨n, hn, List.getElem_mem hi⟩
  · exact hw

theorem Vouched.vectored (hw : Vouched sv up w) (vectors : List (ChunkId × EmbeddingVector)) :
    Vouched sv up (w.writeEmbeddings vectors).2 := by
  unfold World.writeEmbeddings
  split
  · refine hw.shrinks (fun _ row' hr' => ⟨row', hr', fun _ ht => ht⟩) (fun _ _ _ h => h)
      (fun _ _ h => h) (fun _ _ h => h) fun c hc => ?_
    obtain ⟨c₀, hc₀, rfl⟩ := List.mem_map.mp hc
    refine ⟨c₀, hc₀, ?_⟩
    split <;> exact ⟨rfl, rfl⟩
  · exact hw

/-- An operation that vouches for what it stores. -/
theorem vouched_of_acts {op : Op} {r : Except Exn op.Resp} (hop : Vouches sv up op)
    (h : Acts sv op w r w') (hw : Vouched sv up w) : Vouched sv up w' := by
  by_cases hrow : op.row = none
  · obtain ⟨c, hc⟩ := h
    have hw' : w' = (effect sv c op w).2 := by rw [hc]
    have hcalled : ∀ {v : World}, Vouched sv up v → Vouched sv up (called c w v).2 := by
      intro v hv
      rcases called_snd c w v with he | he <;> rw [he]
      · exact hw
      · exact hv
    rw [hw']
    cases op
    case create | updateDocument | setClassification | softDelete | restore => cases hrow
    case putObject b key data =>
      obtain ⟨rfl, id, u, hu, rfl, rfl⟩ := hop
      exact hcalled (hw.quarantined hu)
    case copyObject b key b' key' =>
      obtain ⟨rfl, rfl, id, u, hu, hkey, rfl, hvalid⟩ := hop
      simp only [effect]
      split
      · exact hw
      · rename_i data hfound
        exact hw.copied hu hkey hvalid (eq_of_found hfound)
    case deleteObject b key =>
      simp only [effect]
      split
      · exact hw.removed b key
      · exact hw
      · exact hw
    case putExtraction key r =>
      obtain ⟨id, rfl, hr⟩ := hop
      exact hcalled (hw.extractedTo hr)
    case putNormalization key n =>
      obtain ⟨id, rfl, hn⟩ := hop
      exact hcalled (hw.normalizedTo hn)
    case persistChunks id passages title =>
      obtain ⟨n, hn, rfl⟩ := hop
      simp only [effect]
      split
      · exact hw
      · exact hw.persisted hn
    case writeEmbeddings vectors =>
      simp only [effect]
      split
      · exact hw
      · exact hw.vectored vectors
    case audit id event again =>
      have hact : Acts sv (.audit id event again) w r w' := ⟨c, hc⟩
      obtain ⟨-, a, ha⟩ := acts_audit hact
      rw [← hw', ha]
      exact ⟨hw.rows, hw.quarantine, hw.raw, hw.extracted, hw.normalized, hw.chunks⟩
    case enqueue id stage =>
      exact ⟨hw.rows, hw.quarantine, hw.raw, hw.extracted, hw.normalized, hw.chunks⟩
    case embedDocument id texts =>
      simp only [effect]
      split <;> exact hw
    all_goals exact hw
  · cases op
    case create doc =>
      obtain ⟨u, hu, ht⟩ := hop
      rcases acts_create.mp h with ⟨-, -, rfl⟩ | ⟨t, hins, -, rfl⟩
      · exact hw
      · refine hw.of_documents fun id row hr => ?_
        rw [Documents.insert_get hins] at hr
        rcases Option.or_eq_some_iff.mp hr with hr | ⟨-, hr⟩
        · exact hw.rows id row hr
        · split at hr
          · rename_i hid
            obtain rfl := Option.some.inj hr
            exact ⟨u, hid ▸ hu, ht.of_columns rfl rfl (.inr rfl) (.inr rfl) (.inr rfl)⟩
          · cases hr
    case updateDocument doc =>
      obtain ⟨u, hu, ht⟩ := hop
      rcases acts_updateDocument.mp h with ⟨-, -, rfl⟩ | ⟨t, hup, -, rfl⟩
      · exact hw
      · refine hw.of_documents fun id row hr => ?_
        by_cases hid : id = doc.id
        · subst hid
          cases hold : w.documents.get doc.id with
          | some old =>
            rw [Documents.updateDocument_get hup hold] at hr
            obtain rfl := Option.some.inj hr
            exact ⟨u, hu, ht.writeBack (Documents.get_id hold)⟩
          | none =>
            rw [Documents.updateDocument, hold, Option.isSome_none,
              if_neg Bool.false_ne_true] at hup
            rw [Documents.insert_get hup, hold, Option.none_or, Document.created, if_pos rfl] at hr
            obtain rfl := Option.some.inj hr
            exact ⟨u, hu, ht.of_columns rfl rfl (.inr rfl) (.inr rfl) (.inr rfl)⟩
        · rw [Documents.updateDocument_get_other hup hid] at hr
          exact hw.rows id row hr
    case setClassification k tier =>
      obtain ⟨-, rfl⟩ := acts_setClassification.mp h
      obtain ⟨t, ht⟩ := setClassification_eq w k tier
      have hget := fun j => (congrArg (fun v : World => v.doc j) ht).symm.trans
        (setClassification_docs k j tier)
      rw [ht]
      refine hw.of_rows hget fun j row u hrow => ?_
      split
      · exact hrow.of_columns rfl rfl (.inr rfl) (.inr rfl) (.inr rfl)
      · exact hrow
    case softDelete k =>
      obtain ⟨-, rfl⟩ := acts_softDelete h
      obtain ⟨t, ht⟩ := softDelete_snd w k
      have hget := fun j =>
        (congrArg (fun v : World => v.doc j) ht).symm.trans (softDelete_docs k j)
      rw [ht]
      refine hw.of_rows hget fun j row u hrow => ?_
      split
      · exact hrow.hidden w.now
      · exact hrow
    case restore k =>
      obtain ⟨c, hc⟩ := h
      obtain ⟨-, rfl⟩ := Prod.mk.inj hc
      obtain ⟨t, ht⟩ := restore_snd w k
      have hget := fun j => (congrArg (fun v : World => v.doc j) ht).symm.trans (restore_docs k j)
      rw [ht]
      refine hw.of_rows hget fun j row u hrow => ?_
      split
      · exact hrow.shown
      · exact hrow
    all_goals exact absurd rfl hrow

end Operations

section Answers

theorem told_row {r : Except Exn (Option Document)} (h : Told sv up (.getById id) r) :
    r = .ok none ∨ ∃ doc u, r = .ok (some doc) ∧ doc.id = id ∧ up id = some u ∧
      Truthful sv u doc := by
  obtain ⟨w, w', hw, hact⟩ := h
  obtain ⟨rfl, -⟩ := acts_getById.mp hact
  cases hd : w.doc id with
  | none => exact .inl rfl
  | some doc =>
    obtain ⟨u, hu, ht⟩ := hw.rows id doc hd
    exact .inr ⟨doc, u, rfl, Documents.get_id hd, hu, ht⟩

theorem told_quarantined {m : String} {data : Bytes}
    (h : Told sv up (.getObject .quarantine (buildQuarantineKey id m)) (.ok data)) :
    ∃ u, up id = some u ∧ data = u.data := by
  obtain ⟨w, w', hw, hact⟩ := h
  obtain ⟨-, ⟨e, he⟩ | ⟨v, hv, he⟩⟩ := acts_getObject hact
  · cases he
  · obtain rfl := Except.ok.inj he
    obtain ⟨k, u, hu, hkey, hdata⟩ := hw.quarantine _ _ hv
    obtain rfl := quarantineKey_inj hkey
    exact ⟨u, hu, hdata⟩

theorem told_raw {key : ObjectKey} {data : Bytes}
    (h : Told sv up (.getObject .raw key) (.ok data)) :
    ∃ k u, up k = some u ∧ key = u.rawKey sv ∧ (u.verdict sv).isValid = true ∧ data = u.data := by
  obtain ⟨w, w', hw, hact⟩ := h
  obtain ⟨-, ⟨e, he⟩ | ⟨v, hv, he⟩⟩ := acts_getObject hact
  · cases he
  · obtain rfl := Except.ok.inj he
    exact hw.raw _ _ hv

theorem told_extraction {r : ExtractionResult}
    (h : Told sv up (.getExtraction (artifactKeyFor id)) (.ok r)) : Extracted sv up id r := by
  obtain ⟨w, w', hw, c, hc⟩ := h
  exact hw.extracted id r (eq_of_found (Prod.mk.inj hc).1)

theorem told_normalization {n : NormalizationResult}
    (h : Told sv up (.getNormalization (artifactKeyFor id)) (.ok n)) : Normalized sv up id n := by
  obtain ⟨w, w', hw, c, hc⟩ := h
  exact hw.normalized id n (eq_of_found (Prod.mk.inj hc).1)

end Answers

/-- As long as what it is told goes back to the uploads, so does what it stores. -/
def Faithful (sv : Services) (up : Receipts) {α : Type} (p : Stage α) : Prop :=
  p.Sends (Vouches sv up) (Told sv up)

section Stages

variable {α : Type}

theorem faithful_of_sends {p : Stage α} (h : p.Sends (Vouches sv up) fun _ _ => True) :
    Faithful sv up p := h.expect fun _ _ _ => trivial

theorem receive_faithful {filename : String} {request : UploadRequest} (hu : up id = some u) :
    Faithful sv up (UploadService.receive id filename u.data request u.mimeType) := by
  apply faithful_of_sends
  refine sends_bind (sends_perform ⟨rfl, id, u, hu, rfl, rfl⟩) fun _ => ?_
  refine sends_bind (sends_perform ⟨u, hu, .received sv id filename request u⟩) fun _ => ?_
  refine sends_bind (sends_perform trivial) fun _ => ?_
  exact sends_bind (sends_perform trivial) fun _ => trivial

/-- A stage starts with a look at its row, and says of the file what the row says. -/
theorem faithful_load {k : Option Document → Stage α} (hnone : Faithful sv up (k none))
    (hsome : ∀ doc u, doc.id = id → up id = some u → Truthful sv u doc →
      Faithful sv up (k (some doc))) : Faithful sv up (send (.getById id) >>= k) := by
  apply sends_perform_bind trivial
  intro row hrow
  rcases told_row hrow with hr | ⟨doc, u, hr, hid, hu, ht⟩
  · obtain rfl := Except.ok.inj hr
    exact hnone
  · obtain rfl := Except.ok.inj hr
    exact hsome doc u hid hu ht

theorem vouches_update (hid : doc.id = id) (hu : up id = some u) (ht : Truthful sv u doc) :
    Vouches sv up (.updateDocument doc) := ⟨u, hid ▸ hu, ht⟩

theorem markFailed_vouches {status : DocumentStatus} {event : AuditEventType}
    {message reason : String} (hid : doc.id = id) (hu : up id = some u) (ht : Truthful sv u doc) :
    (markFailed doc status event message reason).Sends (Vouches sv up) fun _ _ => True := by
  have hrow : Truthful sv u { doc with status, rejectionReason := some reason } :=
    ht.of_columns rfl rfl (.inr rfl) (.inr rfl) (.inr rfl)
  refine sends_bind (sends_perform (vouches_update hid hu hrow)) fun _ => ?_
  exact sends_bind (sends_perform trivial) fun _ => trivial

namespace ScanJobHandler

theorem promote_vouches (hid : doc.id = id) (hu : up id = some u) (ht : Truthful sv u doc)
    (hvalid : (u.verdict sv).isValid = true) {key : ObjectKey}
    (hkey : key = buildQuarantineKey id u.mimeType) :
    (promote doc key (u.verdict sv)).Sends (Vouches sv up) fun _ _ => True := by
  have hraw : buildRawKey (u.verdict sv).sha256 doc.mimeType = u.rawKey sv := by
    rw [Receipt.rawKey, ht.mimeType]
  apply promote_sends_of
  · exact moveToRaw_sends_of trivial ⟨rfl, rfl, id, u, hu, hkey, hraw, hvalid⟩ trivial
  · exact vouches_update hid hu (ht.of_columns rfl rfl (.inr rfl) (.inr rfl) (.inr rfl))
  · exact vouches_update hid hu (ht.promoted hvalid)
  · refine lostRace_sends_of (vouches_update hid hu ?_) trivial (fun _ _ _ _ => trivial)
      fun _ _ _ => trivial
    exact (ht.promoted hvalid).of_columns rfl rfl (.inr rfl) (.inr rfl) (.inl rfl)
  · exact handOver_sends_of (fun _ _ _ => trivial) trivial

theorem dedupAndPromote_vouches (hid : doc.id = id) (hu : up id = some u) (ht : Truthful sv u doc)
    (hvalid : (u.verdict sv).isValid = true) {key : ObjectKey}
    (hkey : key = buildQuarantineKey id u.mimeType) :
    (dedupAndPromote doc key (u.verdict sv) none).Sends (Vouches sv up) fun _ _ => True := by
  refine sends_bind (sends_perform trivial) fun existing => ?_
  have hpromote := promote_vouches hid hu ht hvalid hkey
  cases existing with
  | none => exact hpromote
  | some e =>
    dsimp only
    split
    · exact duplicate_sends_of (fun _ _ => trivial)
        (vouches_update hid hu (ht.of_columns rfl rfl (.inl rfl) (.inr rfl) (.inr rfl))) trivial
        fun _ _ _ => trivial
    · exact hpromote

theorem process_faithful (sv : Services) (up : Receipts) (id : DocumentId) :
    Faithful sv up (process sv id none) := by
  refine faithful_load trivial fun doc u hid hu ht => ?_
  dsimp only
  split
  · trivial
  · have hkey : quarantineKeyFor doc = buildQuarantineKey id u.mimeType := by
      rw [ht.quarantineKeyFor_eq, hid]
    apply sends_attempt_perform_bind trivial
    intro read hread
    rw [hkey] at hread
    cases read with
    | error e =>
      have hrow : Truthful sv u (unreadable doc) :=
        ht.of_columns rfl rfl (.inr rfl) (.inr rfl) (.inr rfl)
      refine faithful_of_sends (sends_bind (sends_perform ?_) fun _ => trivial)
      exact vouches_update hid hu hrow
    | ok data =>
      obtain ⟨v, hv, rfl⟩ := told_quarantined hread
      obtain rfl := Option.some.inj (hu.symm.trans hv)
      have hverdict : sv.validateDocument u.data doc.mimeType = u.verdict sv := by
        rw [Receipt.verdict, ht.mimeType]
      dsimp only
      rw [hverdict]
      split
      · rename_i hvalid
        refine faithful_of_sends (dedupAndPromote_vouches ?_ hu ht.hashed hvalid hkey)
        exact hid
      · refine faithful_of_sends (reject_sends_of (vouches_update hid hu ?_) trivial
          fun _ _ _ => trivial)
        exact ht.of_columns rfl rfl (.inl rfl) (.inr rfl) (.inr rfl)

end ScanJobHandler

theorem extraction_faithful (sv : Services) (up : Receipts) (id : DocumentId) :
    Faithful sv up (ExtractionJobHandler.process sv id) := by
  refine faithful_load trivial fun doc u hid hu ht => ?_
  dsimp only
  split
  · trivial
  · split
    · exact faithful_of_sends (markFailed_vouches hid hu ht)
    · rename_i rawKey hpath
      apply sends_attempt_perform_bind trivial
      intro read hread
      cases read with
      | error e => trivial
      | ok data =>
        obtain ⟨k, v, hv, hkey, hvalid, rfl⟩ := told_raw hread
        obtain ⟨hraw, -⟩ := ht.rawPath rawKey hpath
        apply faithful_of_sends
        dsimp only
        unfold ExtractionJobHandler.extract
        split
        · exact markFailed_vouches hid hu ht
        · trivial
        · rename_i result hresult
          have hmade : Extracted sv up doc.id result := by
            refine ⟨u, v, k, hid ▸ hu, hv, hvalid, hkey.symm.trans hraw, ?_⟩
            rw [← ht.mimeType]
            exact hresult
          have hrow : Truthful sv u { doc with
              status := .extracted, extractionMethod := some result.extractionMethod } :=
            ht.of_columns rfl rfl (.inr rfl) (.inr rfl) (.inr rfl)
          refine sends_bind (sends_attempt (sends_perform ⟨doc.id, rfl, hmade⟩)) fun written => ?_
          cases written with
          | error e => trivial
          | ok _ =>
            refine sends_bind (sends_perform (vouches_update hid hu hrow)) fun _ => ?_
            refine sends_bind (sends_perform trivial) fun _ => ?_
            exact sends_bind (sends_perform trivial) fun _ => trivial

theorem normalization_faithful (sv : Services) (up : Receipts) (id : DocumentId) :
    Faithful sv up (NormalizationJobHandler.process sv id) := by
  refine faithful_load trivial fun doc u hid hu ht => ?_
  dsimp only
  split
  · trivial
  · apply sends_attempt_perform_bind trivial
    intro read hread
    cases read with
    | error e => trivial
    | ok extraction =>
      have hmade := told_extraction hread
      apply faithful_of_sends
      dsimp only
      split
      · rename_i hpassed
        have hrow : Truthful sv u { doc with status := .awaitingClassification } :=
          ht.of_columns rfl rfl (.inr rfl) (.inr rfl) (.inr rfl)
        refine sends_bind (sends_attempt (sends_perform ?_)) fun written => ?_
        · exact ⟨id, congrArg artifactKeyFor hid, extraction, hmade, rfl, hpassed⟩
        · cases written with
          | error e => trivial
          | ok _ =>
            refine sends_bind (sends_perform (vouches_update hid hu hrow)) fun _ => ?_
            refine sends_bind (sends_perform trivial) fun _ => ?_
            exact sends_bind (sends_perform trivial) fun _ => trivial
      · exact markFailed_vouches hid hu ht

theorem chunking_faithful (sv : Services) (up : Receipts) (id : DocumentId) :
    Faithful sv up (ChunkingJobHandler.process sv id) := by
  refine faithful_load trivial fun doc u hid hu ht => ?_
  dsimp only
  split
  · trivial
  · apply sends_attempt_perform_bind trivial
    intro read hread
    cases read with
    | error e => trivial
    | ok normalized =>
      have hmade := told_normalization hread
      apply faithful_of_sends
      dsimp only
      split
      · exact markFailed_vouches hid hu ht
      · have hrow : Truthful sv u { doc with status := .chunked } :=
          ht.of_columns rfl rfl (.inr rfl) (.inr rfl) (.inr rfl)
        refine sends_bind (sends_attempt (sends_perform ?_)) fun persisted => ?_
        · exact ⟨normalized, hid ▸ hmade, rfl⟩
        · cases persisted with
          | error e => trivial
          | ok _ =>
            refine sends_bind (sends_perform (vouches_update hid hu hrow)) fun _ => ?_
            refine sends_bind (sends_perform trivial) fun _ => ?_
            exact sends_bind (sends_perform trivial) fun _ => trivial

namespace EmbeddingJobHandler

/-- The stage writes its row and vectors, neither of which says anything of the file. -/
theorem store_vouches (hid : doc.id = id) (hu : up id = some u) (ht : Truthful sv u doc)
    (chunks : List Chunk) (result : EmbeddingResult) :
    (store doc chunks result).Sends (Vouches sv up) fun _ _ => True := by
  have hrow : Truthful sv u { doc with status := .live } :=
    ht.of_columns rfl rfl (.inr rfl) (.inr rfl) (.inr rfl)
  refine sends_bind (sends_attempt (sends_perform trivial)) fun written => ?_
  cases written with
  | error e => trivial
  | ok _ =>
    refine sends_bind (sends_perform (vouches_update hid hu hrow)) fun _ => ?_
    exact sends_bind (sends_perform trivial) fun _ => trivial

theorem embed_vouches (hid : doc.id = id) (hu : up id = some u) (ht : Truthful sv u doc)
    (chunks : List Chunk) :
    (embed doc chunks).Sends (Vouches sv up) fun _ _ => True := by
  refine sends_bind (sends_attempt (sends_perform trivial)) fun embedded => ?_
  cases embedded with
  | error e =>
    cases e with
    | valueError m => exact markFailed_vouches hid hu ht
    | _ => trivial
  | ok result =>
    dsimp only
    split
    · exact markFailed_vouches hid hu ht
    · exact store_vouches hid hu ht chunks result

theorem process_faithful (sv : Services) (up : Receipts) (id : DocumentId) :
    Faithful sv up (process sv id) := by
  refine faithful_load trivial fun doc u hid hu ht => faithful_of_sends ?_
  dsimp only
  split
  · trivial
  · have hlanguage : (detectedLanguage sv id).Sends (Vouches sv up) fun _ _ => True := by
      refine sends_bind (sends_attempt (sends_perform trivial)) fun read => ?_
      cases read with
      | error e => trivial
      | ok result =>
        dsimp only
        split <;> trivial
    refine sends_bind hlanguage fun language => ?_
    split
    · have hrow : Truthful sv u { doc with status := .skippedUnsupportedLanguage } :=
        ht.of_columns rfl rfl (.inr rfl) (.inr rfl) (.inr rfl)
      refine sends_bind (sends_perform (vouches_update hid hu hrow)) fun _ => ?_
      exact sends_bind (sends_perform trivial) fun _ => trivial
    · refine sends_bind (sends_perform trivial) fun chunks => ?_
      split
      · exact markFailed_vouches hid hu ht
      · exact embed_vouches hid hu ht chunks

end EmbeddingJobHandler

theorem processJob_faithful (sv : Services) (up : Receipts) (stage : JobStage) (id : DocumentId) :
    Faithful sv up (processJob sv stage id) := by
  cases stage with
  | scan => exact sends_bind (ScanJobHandler.process_faithful sv up id) fun _ => trivial
  | extract => exact sends_bind (extraction_faithful sv up id) fun _ => trivial
  | normalize => exact sends_bind (normalization_faithful sv up id) fun _ => trivial
  | chunk => exact sends_bind (chunking_faithful sv up id) fun _ => trivial
  | embed => exact sends_bind (EmbeddingJobHandler.process_faithful sv up id) fun _ => trivial

end Stages

end KnowledgeBase
