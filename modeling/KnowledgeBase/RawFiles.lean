import KnowledgeBase.InheritedTier
import KnowledgeBase.Residue

/-! The file behind the path a row names in the raw bucket. Its key is the hash of the content,
so documents that have had the same content share one file there, and an erasure takes it
from all of them. -/

namespace KnowledgeBase

open Program ScanJobHandler Transition

def RawKept (w : World) : Prop :=
  ∀ id r, w.doc id = some r → r.purgedAt = none → ∀ key, r.rawPath = some key →
    w.objects .raw key ≠ none

/-- The row may name this path: it is a tombstone, or the file is there. -/
def Backs (w : World) (id : DocumentId) (path : Option ObjectKey) : Prop :=
  (∃ r, w.doc id = some r ∧ r.purgedAt ≠ none) ∨
    ∀ key, path = some key → w.objects .raw key ≠ none

/-- The operations that name no path but these in a row and delete no file they name. -/
def Names (paths : DocumentId → Option ObjectKey → Prop) : Op → Prop
  | .create doc => doc.rawPath = none
  | .updateDocument doc => doc.rawPath = none ∨ paths doc.id doc.rawPath
  | .deleteObject bucket _ => bucket = .quarantine
  | _ => True

variable {sv : Services} {w w' : World} {paths : DocumentId → Option ObjectKey → Prop}

/-- Rows that keep their path, or become tombstones, keep what they name. -/
theorem rawKept_of_rows (hw : RawKept w) (hobjects : w'.objects = w.objects)
    (hdocs : ∀ id r', w'.doc id = some r' → r'.purgedAt = none →
      ∃ r, w.doc id = some r ∧ r.purgedAt = none ∧ r.rawPath = r'.rawPath) : RawKept w' := by
  intro id r' hr' hp key hkey
  obtain ⟨r, hr, hpr, hpath⟩ := hdocs id r' hr' hp
  rw [hobjects]
  exact hw id r hr hpr key (hpath.trans hkey)

section Operations

variable {op : Op} {r : Except Exn op.Resp} {id : DocumentId} {row row' : Document}

theorem raw_of_names (hop : Names paths op) (h : Acts sv op w r w') : RawGrows w w' := by
  intro key hkey
  rcases acts_objects h with he | ⟨b, k, v, he, -⟩ | ⟨b, k, he, rfl⟩
  · rwa [he]
  · rw [he]
    exact setObject_raw_grows (.inr (Option.some_ne_none v)) key hkey
  · rw [he]
    exact setObject_raw_grows (.inl hop) key hkey

/-- A path in a row was there before, or has been written by an update. -/
theorem rawPath_of_acts (hop : Names paths op) (h : Acts sv op w r w')
    (hr : w'.doc id = some row') {key : ObjectKey} (hkey : row'.rawPath = some key) :
    (∃ row, w.doc id = some row ∧ row.rawPath = some key) ∨ paths id (some key) := by
  by_cases hrow : op.row = some id
  · cases op
    case create doc =>
      rcases acts_create.mp h with ⟨-, -, rfl⟩ | ⟨t, ht, -, rfl⟩
      · exact .inl ⟨row', hr, hkey⟩
      · obtain rfl : doc.id = id := Option.some.inj hrow
        have hself : row' = doc.created := Documents.insert_get_eq ht hr
        have hnone : doc.created.rawPath = none := hop
        rw [hself, hnone] at hkey
        cases hkey
    case updateDocument doc =>
      obtain rfl : doc.id = id := Option.some.inj hrow
      rcases acts_updateDocument.mp h with ⟨-, -, rfl⟩ | ⟨t, ht, -, rfl⟩
      · exact .inl ⟨row', hr, hkey⟩
      · have hpath : doc.rawPath = some key :=
          (Documents.updateDocument_get_eq ht hr).2.2.symm.trans hkey
        rcases hop with hnone | hnamed
        · rw [hnone] at hpath
          cases hpath
        · exact .inr (hpath ▸ hnamed)
    case setClassification k tier =>
      obtain ⟨-, rfl⟩ := acts_setClassification.mp h
      obtain ⟨q, hq, -, -, hp⟩ := setClassification_get hr
      exact .inl ⟨q, hq, hp.symm.trans hkey⟩
    case softDelete k =>
      obtain ⟨-, rfl⟩ := acts_softDelete h
      rw [softDelete_docs] at hr
      obtain ⟨q, hq, rfl⟩ := Option.map_eq_some_iff.mp hr
      refine .inl ⟨q, hq, Eq.trans ?_ hkey⟩
      split <;> simp
    case restore k =>
      obtain ⟨c, hc⟩ := h
      obtain ⟨-, rfl⟩ := Prod.mk.inj hc
      rw [restore_docs] at hr
      obtain ⟨q, hq, rfl⟩ := Option.map_eq_some_iff.mp hr
      refine .inl ⟨q, hq, Eq.trans ?_ hkey⟩
      split <;> simp
    all_goals cases hrow
  · exact .inl ⟨row', (doc_of_acts h hrow).symm.trans hr, hkey⟩

theorem Backs.acts {path : Option ObjectKey} (hop : Names paths op) (h : Acts sv op w r w')
    (hb : Backs w id path) : Backs w' id path := by
  rcases hb with ⟨q, hq, hp⟩ | hb
  · obtain ⟨q', hq', he⟩ := purgedAt_of_acts h hq
    exact .inl ⟨q', hq', he ▸ hp⟩
  · exact .inr fun key hkey => raw_of_names hop h key (hb key hkey)

theorem rawKept_of_acts (hop : Names paths op) (h : Acts sv op w r w')
    (hpaths : ∀ id path, paths id path → Backs w id path) (hw : RawKept w) : RawKept w' := by
  intro id row' hr' hp key hkey
  refine raw_of_names hop h key ?_
  have hunpurged : ∀ row, w.doc id = some row → row.purgedAt = none := by
    intro row hr
    obtain ⟨q, hq, he⟩ := purgedAt_of_acts h hr
    obtain rfl := Option.some.inj (hr'.symm.trans hq)
    exact he.symm.trans hp
  rcases rawPath_of_acts hop h hr' hkey with ⟨row, hr, hpath⟩ | hnamed
  · exact hw id row hr (hunpurged row hr) key hpath
  · rcases hpaths id _ hnamed with ⟨row, hr, hpurged⟩ | hb
    · exact absurd (hunpurged row hr) hpurged
    · exact hb key rfl

/-- A program that names paths with a file behind them. -/
theorem rawKept_of_visits {α : Type} {p : Stage α} (h : Visits (Acts sv) p w w')
    (hp : p.Sends (Names paths) fun _ _ => True)
    (hpaths : ∀ id path, paths id path → Backs w id path) (hw : RawKept w) :
    RawKept w' ∧ ∀ id path, paths id path → Backs w' id path :=
  h.invariant (I := fun u : World => RawKept u ∧ ∀ id path, paths id path → Backs u id path) hp
    (fun _ _ _ _ hop ha hu => ⟨rawKept_of_acts hop ha hu.2 hu.1,
      fun id path hn => (hu.2 id path hn).acts hop ha⟩) ⟨hw, hpaths⟩

end Operations

section Stages

variable {id : DocumentId} {path : Option ObjectKey} {doc d : Document} {key : ObjectKey}
  {v : ValidationResult} {request : Option UploadRequest}

/-- This path in the row of this document. -/
def The (id : DocumentId) (path : Option ObjectKey) (k : DocumentId) (p : Option ObjectKey) :
    Prop := k = id ∧ p = path

theorem Backs.the (hb : Backs w id path) : ∀ k p, The id path k p → Backs w k p := by
  rintro k p ⟨rfl, rfl⟩
  exact hb

theorem backs_row (hw : RawKept w) (hd : w.doc d.id = some d) : Backs w d.id d.rawPath := by
  by_cases hp : d.purgedAt = none
  · exact .inr (hw d.id d hd hp)
  · exact .inl ⟨d, hd, hp⟩

theorem lostRace_names {sha256 : Sha256} :
    (lostRace doc key sha256).Sends (Names paths) fun _ _ => True :=
  lostRace_sends_of (.inl rfl) trivial (fun _ _ _ _ => trivial) fun _ _ _ => trivial

theorem handOver_names : (handOver doc key v).Sends (Names paths) fun _ _ => True :=
  handOver_sends_of (fun _ _ _ => trivial) trivial

/-- The path is recorded once the file is there. -/
theorem promote_raw (h : Visits (Acts sv) (promote doc key v) w w')
    (hb : Backs w doc.id doc.rawPath) (hw : RawKept w) : RawKept w' := by
  have hmove : (moveToRaw key (buildRawKey v.sha256 doc.mimeType)).Sends
      (Names (The doc.id doc.rawPath)) fun _ _ => True := moveToRaw_sends_of trivial trivial rfl
  unfold promote at h
  rcases visits_attempt_bind h with h | ⟨r, u, hu, h⟩
  · exact (rawKept_of_visits h hmove hb.the hw).1
  · obtain ⟨hwu, hbu⟩ := rawKept_of_visits hu.visits hmove hb.the hw
    cases r with
    | error e =>
      refine (rawKept_of_visits h ?_ hbu hwu).1
      exact sends_bind (sends_perform (.inr ⟨rfl, rfl⟩)) fun _ => trivial
    | ok a =>
      have hthere : Backs u doc.id (promoted doc v).rawPath := by
        refine .inr fun k hk => ?_
        obtain rfl := Option.some.inj hk
        exact raw_of_moveToRaw hu
      exact (rawKept_of_visits h
        (recorded_sends_of (.inr ⟨rfl, rfl⟩) lostRace_names handOver_names) hthere.the hwu).1

/-- The row of the document that is replaced keeps the path it has. -/
theorem supersede_raw (h : Visits (Acts sv) (supersede doc request) w w')
    (hb : Backs w id path) (hw : RawKept w) : RawKept w' ∧ Backs w' id path := by
  unfold supersede at h
  split at h
  · obtain rfl := visits_pure h
    exact ⟨hw, hb⟩
  · split at h
    · obtain rfl := visits_pure h
      exact ⟨hw, hb⟩
    · have hk := visits_getById_bind h
      split at hk
      · obtain rfl := visits_pure hk
        exact ⟨hw, hb⟩
      · rename_i prior hprior
        have hrow : w.doc prior.id = some prior := by
          rw [Documents.get_id hprior]
          exact hprior
        have hboth : ∀ k p, The id path k p ∨ The prior.id prior.rawPath k p → Backs w k p :=
          fun k p => Or.rec (hb.the k p) ((backs_row hw hrow).the k p)
        obtain ⟨hw', hb'⟩ := rawKept_of_visits hk
          (sends_bind (sends_perform (.inr (.inr ⟨rfl, rfl⟩))) fun _ =>
            sends_bind (sends_perform trivial) fun _ => trivial) hboth hw
        exact ⟨hw', hb' id path (.inl ⟨rfl, rfl⟩)⟩

theorem dedup_raw (h : Visits (Acts sv) (dedupAndPromote doc key v request) w w')
    (hb : Backs w doc.id doc.rawPath) (hw : RawKept w) : RawKept w' := by
  have hrest : Visits (Acts sv) (supersede doc request >>= fun doc' => promote doc' key v) w w' →
      RawKept w' := by
    intro h
    rcases visits_bind h with h | ⟨doc', u, hu, h⟩
    · exact (supersede_raw h hb hw).1
    · obtain ⟨hwu, hbu⟩ := supersede_raw hu.visits hb hw
      obtain ⟨version, prior, rfl⟩ := supersede_copy hu
      let doc' : Document := { doc with version, supersedesId := prior }
      exact promote_raw h (show Backs u doc'.id doc'.rawPath from hbu) hwu
  have hk := visits_getByChecksum_bind h
  cases hx : w.documents.getByChecksum v.sha256 with
  | none =>
    rw [hx] at hk
    exact hrest hk
  | some e =>
    rw [hx] at hk
    dsimp only at hk
    split at hk
    · exact (rawKept_of_visits hk (duplicate_sends_of (fun _ _ => trivial) (.inr ⟨rfl, rfl⟩) rfl
        fun _ _ _ => trivial) hb.the hw).1
    · exact hrest hk

theorem process_raw (h : Visits (Acts sv) (ScanJobHandler.process sv id request) w w')
    (hw : RawKept w) : RawKept w' := by
  have h' := visits_getById_bind h
  cases hd : w.doc id with
  | none =>
    rw [hd] at h'
    exact visits_pure h' ▸ hw
  | some d =>
    obtain rfl := Documents.get_id hd
    have hb := backs_row hw hd
    rw [hd] at h'
    dsimp only at h'
    split at h'
    · exact visits_pure h' ▸ hw
    · rcases visits_attempt_getObject_bind h' with ⟨e, h'⟩ | ⟨data, -, h'⟩
      · refine (rawKept_of_visits h' ?_ hb.the hw).1
        exact sends_bind (sends_perform (.inr ⟨rfl, rfl⟩)) fun _ => trivial
      · dsimp only at h'
        split at h'
        · let doc : Document :=
            { d with checksum := some (sv.validateDocument data d.mimeType).sha256 }
          exact dedup_raw h' (show Backs w doc.id doc.rawPath from hb) hw
        · exact (rawKept_of_visits h'
            (reject_sends_of (.inr ⟨rfl, rfl⟩) rfl fun _ _ _ => trivial) hb.the hw).1

/-- A stage after the scan writes the path back that it has read. -/
theorem stage_raw {stage : JobStage} (h : Visits (Acts sv) (processJob sv stage id) w w')
    (hw : RawKept w) : RawKept w' := by
  cases stage with
  | scan => exact process_raw (visits_then_pure h) hw
  | extract | normalize | chunk | embed =>
    cases hd : w.doc id with
    | none => exact missing_works h hd ▸ hw
    | some d =>
      obtain rfl := Documents.get_id hd
      cases stage_turn h hd with
      | idles hidle => exact hw
      | acts doc p w' hidle hid hm hq hraw hc h hp =>
        have hb : Backs w doc.id doc.rawPath := by
          rw [hid, hraw]
          exact backs_row hw hd
        refine (rawKept_of_visits h (hp.mono fun op hop => ?_) hb.the hw).1
        cases op
        case updateDocument e =>
          obtain ⟨⟨hide, -⟩, -, -, -, hpath⟩ := hop
          exact .inr ⟨hide, hpath (by decide)⟩
        case create => exact hop.elim
        case deleteObject => exact hop
        all_goals trivial

theorem receive_raw {filename : String} {data : Bytes} {upload : UploadRequest}
    {mimeType : String}
    (h : Visits (Acts sv) (UploadService.receive id filename data upload mimeType) w w')
    (hw : RawKept w) : RawKept w' := by
  have hnames : (UploadService.receive id filename data upload mimeType).Sends
      (Names fun _ _ => False) fun _ _ => True := by
    refine sends_bind (sends_perform trivial) fun _ => ?_
    refine sends_bind (sends_perform rfl) fun _ => ?_
    refine sends_bind (sends_perform trivial) fun _ => ?_
    exact sends_bind (sends_perform trivial) fun _ => trivial
  exact (rawKept_of_visits h hnames (fun _ _ => False.elim) hw).1

end Stages

section Drive

open DriveSyncService

variable {s t : DriveState} {cfg : DriveConfig} {id : DocumentId} {f : FileId}

/-- A sync names no path in the raw bucket. -/
theorem rawKept_of_driven {fetched : Except Exn Bytes} {op : DriveOp} {tier : Classification}
    {r : Except Exn op.Resp} (hop : Syncs f tier op) (h : Driven sv fetched op s r t)
    (hw : RawKept s.world) : RawKept t.world := by
  obtain ⟨c, hc⟩ := h
  cases op with
  | repository op =>
    obtain ⟨hr, rfl⟩ := Prod.mk.inj hc
    rcases repositoryEffect_cases sv c op s.world with ⟨e, he⟩ | ⟨c', he⟩
    · show RawKept (repositoryEffect sv c op s.world).2
      rw [he]
      exact hw
    · have hact : Acts sv op s.world (effect sv c' op s.world).1 (effect sv c' op s.world).2 :=
        ⟨c', rfl⟩
      show RawKept (repositoryEffect sv c op s.world).2
      rw [he]
      have hnames : Names (fun _ _ => False) op := by
        cases op
        case create => exact hop
        case updateDocument | deleteObject => exact hop.elim
        all_goals trivial
      exact rawKept_of_acts hnames hact (fun _ _ => False.elim) hw
  | _ =>
    have hworld : t.world = s.world := by
      rcases c with ⟨storage, _ | e⟩ <;> · obtain ⟨-, rfl⟩ := Prod.mk.inj hc; rfl
    rw [hworld]
    exact hw

theorem retireFile_raw (hw : RawKept s.world) : RawKept (retireFile s f).world := by
  cases hrow : s.file f with
  | none =>
    rw [retireFile, hrow]
    exact hw
  | some row =>
    obtain ⟨w, hobjects, hdocs, ht⟩ := retireFile_spec hrow
    rw [ht]
    refine rawKept_of_rows hw hobjects fun d r' hr' hp => ?_
    have hd' : w.doc d = some r' := hr'
    rw [hdocs] at hd'
    obtain ⟨r, hr, rfl⟩ := Option.map_eq_some_iff.mp hd'
    refine ⟨r, hr, ?_⟩
    split at hp <;> rename_i hd
    · rw [Document.hidden_purgedAt] at hp
      simp [hd, hp]
    · simp [hd, hp]

theorem supersededRow_columns (w : World) (ids : List DocumentId) (j : DocumentId)
    (r : Document) : (supersededRow w ids j r).purgedAt = r.purgedAt ∧
      (supersededRow w ids j r).rawPath = r.rawPath := by
  unfold supersededRow
  split <;> simp

theorem reconcileFile_raw (hw : RawKept s.world) : RawKept (reconcileFile sv s f).world := by
  have hspec := reconcileFile_spec sv s f
  generalize reconcileFile sv s f = t at hspec ⊢
  cases hspec with
  | waits hn => exact hw
  | promotes older newest w hv hp hl hobjects hdocs =>
    refine rawKept_of_rows hw hobjects fun d r' hr' hpr => ?_
    have hd := hdocs d
    have hd' : w.doc d = some r' := hr'
    rw [hd', Option.map_some] at hd
    obtain ⟨r, hr, he⟩ := Option.map_eq_some_iff.mp hd.symm
    obtain ⟨hpurged, hpath⟩ := supersededRow_columns s.world (outdated older) d r
    have hp' := congrArg Document.purgedAt he
    have hpath' := congrArg Document.rawPath he
    exact ⟨r, hr, hpurged.symm.trans (hp'.trans hpr), hpath.symm.trans hpath'⟩

end Drive

/-- No document but this one names its raw file, apart from refused copies that are purged
with it. -/
def OwnsRaw (w : World) (id : DocumentId) : Prop :=
  ∀ d, w.doc id = some d → d.purgedAt = none → w.busy id = false → ∀ key, d.rawPath = some key →
    ∀ k r, k ≠ id → w.doc k = some r → r.purgedAt = none → r.rawPath = some key →
      d.checksum ≠ none ∧ r.checksum = d.checksum ∧ r.status = .duplicate

section Erase

variable {d : Document}

theorem dropObject_other {objects : Bucket → ObjectKey → Option Bytes} {b b' : Bucket}
    (h : b' ≠ b) (path : Option ObjectKey) : World.dropObject objects b path b' = objects b' := by
  cases path with
  | none => rfl
  | some k => exact Function.update_of_ne h _ _

theorem dropObject_self (objects : Bucket → ObjectKey → Option Bytes) (b : Bucket)
    (path : Option ObjectKey) (key : ObjectKey) :
    World.dropObject objects b path b key = if path = some key then none else objects b key := by
  cases path with
  | none => rfl
  | some k => simp [World.dropObject, Function.update_apply, eq_comm]

/-- The raw files after an erasure are the others. -/
theorem eraseDocument_raw (hbusy : w.busy d.id = false) (key : ObjectKey) :
    (w.eraseDocument d).objects .raw key =
      if d.rawPath = some key then none else w.objects .raw key := by
  obtain ⟨a, ha⟩ := w.eraseDocument_eq hbusy
  rw [ha]
  dsimp only
  rw [dropObject_other (by decide), dropObject_self]

/-- The rows that are no tombstones after an erasure. -/
theorem eraseDocument_unpurged (hbusy : w.busy d.id = false) {k : DocumentId} {r : Document} :
    ((w.eraseDocument d).doc k = some r ∧ r.purgedAt = none) ↔
      w.doc k = some r ∧ r.purgedAt = none ∧ k ≠ d.id ∧
        ¬ (d.checksum ≠ none ∧ r.checksum = d.checksum ∧ r.status = .duplicate) := by
  obtain ⟨a, ha⟩ := w.eraseDocument_eq hbusy
  have hdoc : (w.eraseDocument d).doc k = (w.tombstoned d).get k := by rw [ha]; rfl
  rw [hdoc, w.tombstoned_get, Option.map_eq_some_iff]
  constructor
  · rintro ⟨⟨q, hq, rfl⟩, hp⟩
    split at hp
    · cases hp
    · rename_i hself
      split at hp
      · cases hp
      · rename_i hdup
        rw [if_neg hself, if_neg hdup]
        exact ⟨hq, hp, fun hk => hself ⟨hk, hp⟩, hdup⟩
  · rintro ⟨hr, hp, hk, hdup⟩
    exact ⟨⟨r, hr, by rw [if_neg fun h => hk h.1, if_neg hdup]⟩, hp⟩

/-- An erasure leaves every file that is named exactly if nobody else names its own. -/
theorem rawKept_eraseDocument_iff (hw : RawKept w) (hd : w.doc d.id = some d)
    (hp : d.purgedAt = none) : RawKept (w.eraseDocument d) ↔ OwnsRaw w d.id := by
  by_cases hbusy : w.busy d.id = true
  · have hsame : w.eraseDocument d = w := if_pos hbusy
    rw [hsame]
    refine iff_of_true hw fun _ _ _ hfree => ?_
    rw [hbusy] at hfree
    cases hfree
  · have hfree := Bool.eq_false_iff.mpr hbusy
    constructor
    · intro hkept e he _ _ key hkey k r hk hr hrp hrkey
      obtain rfl := Option.some.inj (hd.symm.trans he)
      by_contra hdup
      obtain ⟨hr', -⟩ := (eraseDocument_unpurged hfree).mpr ⟨hr, hrp, hk, hdup⟩
      refine hkept k r hr' hrp key hrkey ?_
      rw [eraseDocument_raw hfree, if_pos hkey]
    · intro howns k r hr' hrp key hrkey
      obtain ⟨hr, -, hk, hdup⟩ := (eraseDocument_unpurged hfree).mp ⟨hr', hrp⟩
      rw [eraseDocument_raw hfree, if_neg fun hkey =>
        hdup (howns d hd hp hfree key hkey k r hk hr hrp hrkey)]
      exact hw k r hr hrp key hrkey

end Erase

/-- What happens to the documents and the buckets: the sync, the stages and the people it
works beside, uploads through the app and the scans of uploads that replace a document. -/
inductive StoreAction where
  | sync (a : SyncAction)
  | receive (id : DocumentId) (filename : String) (data : Bytes) (request : UploadRequest)
      (mimeType : String) (luck : Nat → Luck) (operations : Nat)
  | scan (id : DocumentId) (request : Option UploadRequest) (luck : Nat → Luck)
      (operations : Nat)

def storeStep (sv : Services) (cfg : DriveConfig) (s : SyncState) :
    StoreAction → Option SyncState
  | .sync a => SyncState.step sv cfg s a
  | .receive id filename data request mimeType luck operations =>
    some { s with store := { s.store with
      world := (after (effect sv) luck operations
        (UploadService.receive id filename data request mimeType) s.store.world).2 } }
  | .scan id request luck operations =>
    some { s with store := { s.store with
      world := (after (effect sv) luck operations
        (ScanJobHandler.process sv id request) s.store.world).2 } }

/-- An erasure takes away the file of no other document. -/
def ErasesOwn (s : SyncState) : StoreAction → Prop
  | .sync (.erase id) => OwnsRaw s.store.world id
  | _ => True

namespace SyncState

variable {cfg : DriveConfig} {s t : SyncState}

theorem classify_raw {id : DocumentId} {tier : Classification} {u v : DriveState}
    (hw : RawKept u.world) (h : classify u id tier = some v) : RawKept v.world := by
  have hobjects : v.world.objects = u.world.objects := by
    unfold classify at h
    split at h
    · cases h
    · split at h
      · cases h
      · obtain rfl := Option.some.inj h
        obtain ⟨docs, hdocs⟩ := setClassification_eq u.world id tier
        show (u.world.setClassification id tier).objects = _
        rw [hdocs]
  refine rawKept_of_rows hw hobjects fun k r' hr' hp => ?_
  rw [show v.world.doc k = _ from (classify_handled h).docs k] at hr'
  obtain ⟨r, hr, rfl⟩ := Option.map_eq_some_iff.mp hr'
  refine ⟨r, hr, ?_⟩
  split at hp <;> rename_i hk <;> simp_all

theorem restoreInApp_raw {id : DocumentId} {u v : DriveState} (hw : RawKept u.world)
    (h : restoreInApp u id = some v) : RawKept v.world := by
  have hobjects : v.world.objects = u.world.objects := by
    unfold restoreInApp at h
    split at h
    · cases h
    · split at h
      · cases h
      · obtain rfl := Option.some.inj h
        obtain ⟨docs, hdocs⟩ := restore_snd (w := u.world) id
        show (u.world.restore id).2.objects = _
        rw [hdocs]
  refine rawKept_of_rows hw hobjects fun k r' hr' hp => ?_
  rw [show v.world.doc k = _ from (restoreInApp_handled h).docs k] at hr'
  obtain ⟨r, hr, rfl⟩ := Option.map_eq_some_iff.mp hr'
  refine ⟨r, hr, ?_⟩
  split at hp <;> rename_i hk <;> simp_all

theorem step_raw {a : SyncAction} (hw : RawKept s.store.world) (h : step sv cfg s a = some t)
    (ha : ∀ id, a ≠ .erase id) : RawKept t.store.world := by
  cases a with
  | erase id => exact absurd rfl (ha id)
  | syncItem id fetched luck =>
    simp only [step] at h
    split at h
    · rename_i listing limited item tier folder items hp
      split at h
      · have hends : Ends (Driven sv fetched) (DriveSyncService.syncItem cfg id item tier folder)
            s.store (run (driveEffect sv fetched) luck
              (DriveSyncService.syncItem cfg id item tier folder) s.store).1
            (run (driveEffect sv fetched) luck
              (DriveSyncService.syncItem cfg id item tier folder) s.store).2 :=
          ends_run (fun n _ _ => ⟨luck n, rfl⟩) _ _
        have hkept := hends.invariant (I := fun u : DriveState => RawKept u.world)
          DriveSyncService.syncItem_syncs
          (fun _ _ _ _ => rawKept_of_driven) hw
        split at h <;> rename_i hrun <;> rw [hrun] at hkept <;> obtain rfl := Option.some.inj h <;>
          exact hkept
      · cases h
    · cases h
  | dieInItem id fetched luck operations =>
    simp only [step] at h
    split at h
    · rename_i listing limited item tier folder items hp
      split at h
      · have hvisits : Visits (Driven sv fetched)
            (DriveSyncService.syncItem cfg id item tier folder) s.store
            (after (driveEffect sv fetched) luck operations
              (DriveSyncService.syncItem cfg id item tier folder) s.store).2 :=
          visits_after (fun n _ _ => ⟨luck n, rfl⟩) operations _ _
        have hkept := hvisits.invariant (I := fun u : DriveState => RawKept u.world)
          DriveSyncService.syncItem_syncs
          (fun _ _ _ _ => rawKept_of_driven) hw
        obtain rfl := Option.some.inj h
        exact hkept
      · cases h
    · cases h
  | stage stage id luck operations =>
    obtain rfl := Option.some.inj h
    exact stage_raw (visits_after (fun n _ _ => ⟨luck n, rfl⟩) operations _ _) hw
  | classify id tier =>
    obtain ⟨store, hc, rfl⟩ := Option.map_eq_some_iff.mp h
    exact classify_raw hw hc
  | restoreInApp id =>
    obtain ⟨store, hr, rfl⟩ := Option.map_eq_some_iff.mp h
    exact restoreInApp_raw hw hr
  | retireFile =>
    simp only [step] at h
    split at h
    · obtain rfl := Option.some.inj h
      exact retireFile_raw hw
    · cases h
  | reconcileFile =>
    simp only [step] at h
    split at h
    · obtain rfl := Option.some.inj h
      exact reconcileFile_raw hw
    · cases h
  | syncOnce | nextPhase | finish =>
    simp only [step] at h
    split at h <;> first | cases h; done | obtain rfl := Option.some.inj h; exact hw

/-- One step keeps what the rows name exactly if it is no erasure of a file that is shared. -/
theorem storeStep_raw_iff {a : StoreAction} (hw : RawKept s.store.world)
    (h : storeStep sv cfg s a = some t) : RawKept t.store.world ↔ ErasesOwn s a := by
  cases a with
  | receive id filename data request mimeType luck operations =>
    obtain rfl := Option.some.inj h
    exact iff_of_true
      (receive_raw (visits_after (fun n _ _ => ⟨luck n, rfl⟩) operations _ _) hw) trivial
  | scan id request luck operations =>
    obtain rfl := Option.some.inj h
    exact iff_of_true
      (process_raw (visits_after (fun n _ _ => ⟨luck n, rfl⟩) operations _ _) hw) trivial
  | sync a =>
    by_cases ha : ∃ id, a = .erase id
    · obtain ⟨id, rfl⟩ := ha
      obtain ⟨store, he, rfl⟩ := Option.map_eq_some_iff.mp h
      unfold erase at he
      split at he
      · cases he
      · rename_i d hd
        obtain rfl := Documents.get_id hd
        split at he
        · cases he
        · rename_i hp
          obtain rfl := Option.some.inj he
          exact rawKept_eraseDocument_iff hw hd (not_not.mp hp)
    · have hne : ∀ id, a ≠ .erase id := fun id he => ha ⟨id, he⟩
      refine iff_of_true (step_raw hw h hne) ?_
      cases a
      case erase id => exact absurd rfl (hne id)
      all_goals trivial

end SyncState

namespace SyncState

theorem start_raw : RawKept start.store.world := by
  intro id r hr
  cases hr

/-- Imported, edited, and edited back to the first content; the raw file of the first version,
which is superseded by now, becomes that of the third. -/
def editedBack : List StoreAction :=
  (editedAndLive ++ upToReconciliation ++ [SyncAction.reconcileFile, .finish] ++
    fullPass (editions "3") [syncing 2 [37]] 0 1 ++ [SyncAction.finish, working .scan 2]).map .sync

end SyncState

end KnowledgeBase
