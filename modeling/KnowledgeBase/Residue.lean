import KnowledgeBase.Dedup
import KnowledgeBase.Supersession

/-! What the quarantine bucket still holds of a document whose row has forgotten its
path there. The row of a rejected file and the row of a duplicate are written before
the object is deleted, the row of a promotion after, and nobody looks at what the
delete answers. -/

namespace KnowledgeBase

open Program ScanJobHandler

/-- Everything that storage and database may do. Where a failed delete is always
raised, none from quarantine is answered by `False` alone. -/
def Stores (sv : Services) (raises : Bool) : Program.Acts Op Op.Resp Exn World :=
  fun op w r w' => ∃ c, effect sv c op w = (r, w') ∧
    (raises = true → ∀ key, op = .deleteObject .quarantine key → c ≠ .silent)

def NoResidue (id : DocumentId) (w : World) : Prop :=
  ∀ d, w.doc id = some d → d.quarantinePath = none →
    w.objects .quarantine (buildQuarantineKey id d.mimeType) = none

/-- The row says where in quarantine the file is, or nothing is there. -/
def Traced (id : DocumentId) (w : World) : Prop :=
  ∀ d, w.doc id = some d → d.quarantinePath = some (buildQuarantineKey id d.mimeType) ∨
    d.quarantinePath = none ∧ w.objects .quarantine (buildQuarantineKey id d.mimeType) = none

/-- The scan of this state, if it finds a file to scan, comes to the promotion. -/
def ScanPromotes (sv : Services) (id : DocumentId) (w : World) : Prop :=
  ∀ d data, w.doc id = some d → ¬ Guarded d →
    w.objects .quarantine (quarantineKeyFor d) = some data →
    (sv.validateDocument data d.mimeType).isValid = true ∧
      ∀ e, w.documents.getByChecksum (sv.validateDocument data d.mimeType).sha256 = some e →
        e.id = id

/-- The scan of this state finds no file to scan. -/
def ScanIdle (id : DocumentId) (w : World) : Prop :=
  ∀ d, w.doc id = some d → ¬ Guarded d → w.objects .quarantine (quarantineKeyFor d) = none

/-- What a scan has to find for nothing to be left behind, wherever it is cut off. -/
def ScanEmpties (sv : Services) (raises : Bool) (id : DocumentId) (w : World) : Prop :=
  ScanIdle id w ∨ raises = true ∧ ScanPromotes sv id w

/-- A scan of the document, for whatever upload, is run and cut off anywhere. -/
def ScanRuns (sv : Services) (raises : Bool) (id : DocumentId) (w w' : World) : Prop :=
  ∃ request, Visits (Stores sv raises) (process sv id request) w w'

/-- One scan after another, each from a state that meets the condition. -/
def Rescans (sv : Services) (raises : Bool) (ok : World → Prop) (id : DocumentId) :
    World → World → Prop :=
  Relation.ReflTransGen fun w w' => ok w ∧ ScanRuns sv raises id w w'

/-- The row names this file's key as long as it names any, and the key is empty once
the file is said to be gone. -/
structure Filed (id : DocumentId) (mimeType : String) (gone : Bool) (w : World) : Prop where
  row : ∀ d, w.doc id = some d → d.mimeType = mimeType ∧
    (d.quarantinePath = some (buildQuarantineKey id mimeType) ∨
      gone = true ∧ d.quarantinePath = none)
  empty : gone = true → w.objects .quarantine (buildQuarantineKey id mimeType) = none

/-- The operations that leave it so. -/
def LeavesFiled (id : DocumentId) (mimeType : String) (gone : Bool) : Op → Prop
  | .updateDocument doc => doc.id = id → doc.mimeType = mimeType ∧
      (doc.quarantinePath = some (buildQuarantineKey id mimeType) ∨
        gone = true ∧ doc.quarantinePath = none)
  | .create _ | .putObject _ _ _ | .softDelete _ | .restore _ => False
  | .copyObject _ _ b _ => b = .raw
  | _ => True

variable {sv : Services} {raises gone : Bool} {w w' : World} {id : DocumentId}
  {mimeType : String}

theorem Traced.noResidue (h : Traced id w) : NoResidue id w := by
  intro d hd hp
  rcases h d hd with he | ⟨-, he⟩
  · rw [hp] at he
    cases he
  · exact he

theorem Filed.traced (h : Filed id mimeType gone w) : Traced id w := by
  intro d hd
  obtain ⟨hm, hp | ⟨hg, hp⟩⟩ := h.row d hd
  · exact .inl (hm ▸ hp)
  · exact .inr ⟨hp, hm ▸ h.empty hg⟩

theorem Traced.filed {d : Document} (h : Traced id w) (hd : w.doc id = some d) :
    Filed id d.mimeType d.quarantinePath.isNone w := by
  rcases h d hd with hp | ⟨hp, he⟩
  · refine ⟨fun e he => ?_, by simp [hp]⟩
    obtain rfl := Option.some.inj (hd.symm.trans he)
    exact ⟨rfl, .inl hp⟩
  · refine ⟨fun e he => ?_, fun _ => he⟩
    obtain rfl := Option.some.inj (hd.symm.trans he)
    exact ⟨rfl, .inr ⟨by simp [hp], hp⟩⟩

theorem Filed.emptied (h : Filed id mimeType gone w)
    (he : w.objects .quarantine (buildQuarantineKey id mimeType) = none) :
    Filed id mimeType true w where
  row := by
    intro d hd
    obtain ⟨hm, hp | ⟨-, hp⟩⟩ := h.row d hd
    · exact ⟨hm, .inl hp⟩
    · exact ⟨hm, .inr ⟨rfl, hp⟩⟩
  empty := fun _ => he

theorem stores_acts {op : Op} {r : Except Exn op.Resp} (h : Stores sv raises op w r w') :
    Acts sv op w r w' := by
  obtain ⟨c, hc, -⟩ := h
  exact ⟨c, hc⟩

theorem healthy_stores {op : Op} {r : Except Exn op.Resp} (h : Healthy sv op w r w') :
    Stores sv raises op w r w' := ⟨.fine, h, fun _ _ _ hc => by cases hc⟩

/-- An update says what it says in its row, whether the row was there or not. -/
theorem updateDocument_path {t t' : Documents} {doc r : Document}
    (h : t.updateDocument doc = some t') (hr : t'.get doc.id = some r) :
    r.mimeType = doc.mimeType ∧ r.quarantinePath = doc.quarantinePath := by
  cases hrow : t.get doc.id with
  | some row =>
    rw [Documents.updateDocument_get h hrow] at hr
    obtain rfl := Option.some.inj hr
    exact ⟨rfl, rfl⟩
  | none =>
    rw [Documents.updateDocument, hrow, Option.isSome_none, if_neg Bool.false_ne_true] at h
    rw [Documents.insert_get h, hrow, Option.none_or, Document.created, if_pos rfl] at hr
    obtain rfl := Option.some.inj hr
    exact ⟨rfl, rfl⟩

theorem quarantine_kept {op : Op} {r : Except Exn op.Resp} {key : ObjectKey}
    (hop : LeavesFiled id mimeType gone op) (h : Acts sv op w r w')
    (he : w.objects .quarantine key = none) : w'.objects .quarantine key = none := by
  rcases acts_objects h with ho | ⟨b, k, v, ho, ⟨v', rfl⟩ | ⟨b', k', rfl⟩⟩ | ⟨b, k, ho, rfl⟩
  · rw [ho]
    exact he
  · cases hop
  · have hb : b = .raw := hop
    rw [ho, hb, setObject_objects_other (by decide)]
    exact he
  · rw [ho]
    by_cases hb : b = .quarantine
    · subst hb
      by_cases hk : key = k
      · rw [hk, setObject_objects_self]
      · simpa [World.setObject, Function.update_of_ne hk] using he
    · rw [setObject_objects_other (Ne.symm hb)]
      exact he

theorem filed_of_acts {op : Op} {r : Except Exn op.Resp} (hop : LeavesFiled id mimeType gone op)
    (h : Acts sv op w r w') (hw : Filed id mimeType gone w) : Filed id mimeType gone w' where
  row := by
    intro d hd
    by_cases hr : op.row = some id
    · cases op
      case updateDocument doc =>
        obtain rfl : doc.id = id := Option.some.inj hr
        rcases acts_updateDocument.mp h with ⟨-, -, rfl⟩ | ⟨t, ht, -, rfl⟩
        · exact hw.row d hd
        · obtain ⟨hm, hp⟩ := updateDocument_path ht hd
          rw [hm, hp]
          exact hop rfl
      case setClassification k tier =>
        obtain ⟨-, rfl⟩ := acts_setClassification.mp h
        rw [setClassification_docs] at hd
        obtain ⟨q, hq, rfl⟩ := Option.map_eq_some_iff.mp hd
        have hk := hw.row q hq
        split <;> exact hk
      case create | softDelete | restore => cases hop
      all_goals cases hr
    · exact hw.row d ((doc_of_acts h hr).symm.trans hd)
  empty := fun hg => quarantine_kept hop h (hw.empty hg)

theorem filed_of_visits {α : Type} {p : Stage α} (h : Visits (Stores sv raises) p w w')
    (hp : p.Sends (LeavesFiled id mimeType gone) (fun _ _ => True)) (hw : Filed id mimeType gone w) :
    Filed id mimeType gone w' :=
  h.invariant hp (fun _ _ _ _ hop ha hs => filed_of_acts hop (stores_acts ha) hs) hw

section Sends

variable {doc : Document} {key rawKey : ObjectKey} {v : ValidationResult}

theorem escalate_files (canonical : Document) (incoming : Option Classification) :
    (escalateTierIfStricter canonical incoming).Sends (LeavesFiled id mimeType gone)
      (fun _ _ => True) := by
  unfold escalateTierIfStricter
  split
  · trivial
  · split
    · refine sends_bind (sends_perform trivial) fun _ => ?_
      exact sends_bind (sends_perform trivial) fun _ => trivial
    · trivial

theorem moveToRaw_files : (moveToRaw key rawKey).Sends (LeavesFiled id mimeType gone)
    (fun _ _ => True) := by
  refine sends_bind (sends_perform trivial) fun there => ?_
  cases there
  · refine sends_bind (sends_perform rfl) fun _ => ?_
    exact sends_bind (sends_perform trivial) fun _ => trivial
  · exact sends_bind (sends_perform trivial) fun _ => trivial

theorem lostRace_files {sha256 : Sha256} (h : LeavesFiled id mimeType gone (.updateDocument doc)) :
    (lostRace doc key sha256).Sends (LeavesFiled id mimeType gone) (fun _ _ => True) := by
  refine sends_bind (sends_perform h) fun _ => ?_
  refine sends_bind (sends_perform trivial) fun canonical => ?_
  refine sends_bind ?_ fun _ => sends_bind (sends_perform trivial) fun _ => trivial
  unfold escalateWinner
  split
  · trivial
  · split
    · trivial
    · exact sends_bind (escalate_files _ _) fun _ => trivial

theorem handOver_files : (handOver doc key v).Sends (LeavesFiled id mimeType gone)
    (fun _ _ => True) := by
  refine sends_bind (sends_perform trivial) fun _ => ?_
  refine sends_bind (sends_perform trivial) fun _ => ?_
  exact sends_bind (sends_perform trivial) fun _ => trivial

/-- What a promotion does once the file is out of quarantine. -/
theorem recorded_files (hm : doc.mimeType = mimeType) :
    (attempt (send (.updateDocument (promoted doc v))) >>= fun written =>
      match written with
      | .error .integrityError => lostRace (promoted doc v) key v.sha256
      | .error e => raise e
      | .ok _ => handOver doc key v).Sends (LeavesFiled id mimeType true) (fun _ _ => True) := by
  have hwrite : LeavesFiled id mimeType true (.updateDocument (promoted doc v)) :=
    fun _ => ⟨hm, .inr ⟨rfl, rfl⟩⟩
  refine sends_bind (sends_attempt (sends_perform hwrite)) fun written => ?_
  split
  · exact lostRace_files hwrite
  · trivial
  · exact handOver_files

end Sends

/-- A move that is reported as done, where failed deletes are raised, has emptied the
key in quarantine. -/
theorem quarantine_of_moveToRaw {key rawKey : ObjectKey}
    (h : Ends (Stores sv true) (moveToRaw key rawKey) w (.ok ()) w') :
    w'.objects .quarantine key = none := by
  have hdel : ∀ {u u' : World} {b : Bool},
      Stores sv true (.deleteObject .quarantine key) u (.ok b) u' →
        u'.objects .quarantine key = none := by
    rintro u u' b ⟨c, hc, hloud⟩
    have hne := hloud rfl key rfl
    cases c with
    | fine =>
      obtain rfl := (Prod.mk.inj hc).2
      exact setObject_objects_self _ _ _ _
    | fails m => cases (Prod.mk.inj hc).1
    | silent => exact absurd rfl hne
  unfold moveToRaw at h
  rcases ends_send_bind.mp h with ⟨e, -, he⟩ | ⟨there, u, -, h⟩
  · cases he
  · split at h
    · rcases ends_send_bind.mp h with ⟨e, -, he⟩ | ⟨b, v, hv, h⟩
      · cases he
      · obtain ⟨-, rfl⟩ := ends_ret.mp h
        exact hdel hv
    · rcases ends_send_bind.mp h with ⟨e, -, he⟩ | ⟨b, v, -, h⟩
      · cases he
      · rcases ends_send_bind.mp h with ⟨e, -, he⟩ | ⟨b', v', hv', h⟩
        · cases he
        · obtain ⟨-, rfl⟩ := ends_ret.mp h
          exact hdel hv'

/-- A promotion deletes before it records. -/
theorem promote_traced {doc : Document} {v : ValidationResult}
    (hp : doc.quarantinePath = some (buildQuarantineKey id doc.mimeType))
    (hw : Filed id doc.mimeType false w)
    (h : Visits (Stores sv true) (promote doc (buildQuarantineKey id doc.mimeType) v) w w') :
    Traced id w' := by
  unfold promote at h
  rcases visits_attempt_bind h with h | ⟨r, u, hu, h⟩
  · exact (filed_of_visits h moveToRaw_files hw).traced
  · have hu' := filed_of_visits hu.visits moveToRaw_files hw
    cases r with
    | error e =>
      refine (filed_of_visits h ?_ hu').traced
      exact sends_bind (sends_perform fun _ => ⟨rfl, .inl hp⟩) fun _ => trivial
    | ok a =>
      have hempty := hu'.emptied (quarantine_of_moveToRaw hu)
      exact (filed_of_visits h (recorded_files rfl) hempty).traced

/-- Retiring the document an upload replaces leaves this one's file where it is. -/
theorem supersede_filed {doc : Document} {request : Option UploadRequest}
    (hw : Filed id mimeType false w)
    (h : Visits (Stores sv raises) (supersede doc request) w w') : Filed id mimeType false w' := by
  unfold supersede at h
  split at h
  · exact visits_pure h ▸ hw
  · split at h
    · exact visits_pure h ▸ hw
    · rcases visits_send_bind h with rfl | ⟨e, he⟩ | ⟨prior, u, hu, hk⟩
      · exact hw
      · cases (acts_getById.mp (stores_acts he)).1
      · obtain ⟨hprior, rfl⟩ := acts_getById.mp (stores_acts hu)
        split at hk
        · exact visits_pure hk ▸ hw
        · rename_i p
          have hp := (Except.ok.inj hprior).symm
          refine filed_of_visits hk ?_ hw
          refine sends_bind (sends_perform ?_) fun _ => ?_
          · intro hid
            have hpid : p.id = id := hid
            have hrow : u.doc id = some p := by
              rw [← hpid, Documents.get_id hp]
              exact hp
            exact hw.row p hrow
          · exact sends_bind (sends_perform trivial) fun _ => trivial

/-- What the promotion goes on with is this document's copy, linked to the one it replaces. -/
theorem supersede_copy {act : Program.Acts Op Op.Resp Exn World} {doc doc' : Document}
    {request : Option UploadRequest} (h : Ends act (supersede doc request) w (.ok doc') w') :
    ∃ version supersedesId, doc' = { doc with version, supersedesId } := by
  have hsame : ∀ {u : World}, Ends act (pure doc : Stage Document) u (.ok doc') w' →
      ∃ version supersedesId, doc' = { doc with version, supersedesId } := by
    intro u hu
    obtain rfl := Except.ok.inj (ends_ret.mp hu).1
    exact ⟨doc'.version, doc'.supersedesId, rfl⟩
  unfold supersede at h
  split at h
  · exact hsame h
  · split at h
    · exact hsame h
    · rcases ends_send_bind.mp h with ⟨e, -, he⟩ | ⟨prior, u, -, h⟩
      · cases he
      · split at h
        · exact hsame h
        · rcases ends_send_bind.mp h with ⟨e, -, he⟩ | ⟨_, v, -, h⟩
          · cases he
          · rcases ends_send_bind.mp h with ⟨e, -, he⟩ | ⟨_, x, -, h⟩
            · cases he
            · obtain rfl := Except.ok.inj (ends_ret.mp h).1
              exact ⟨_, _, rfl⟩

theorem dedup_traced {doc : Document} {v : ValidationResult} {request : Option UploadRequest}
    (hid : doc.id = id) (hp : doc.quarantinePath = some (buildQuarantineKey id doc.mimeType))
    (hw : Filed id doc.mimeType false w)
    (hlookup : ∀ e, w.documents.getByChecksum v.sha256 = some e → e.id = id)
    (h : Visits (Stores sv true)
      (dedupAndPromote doc (buildQuarantineKey id doc.mimeType) v request) w w') :
    Traced id w' := by
  have hrest : Visits (Stores sv true) (supersede doc request >>= fun doc' =>
      promote doc' (buildQuarantineKey id doc.mimeType) v) w w' → Traced id w' := by
    intro h
    rcases visits_bind h with h | ⟨doc', u, hu, h⟩
    · exact (supersede_filed hw h).traced
    · obtain ⟨version, prior, rfl⟩ := supersede_copy hu
      have hu' := supersede_filed hw hu.visits
      let doc' : Document := { doc with version, supersedesId := prior }
      exact promote_traced
        (show doc'.quarantinePath = some (buildQuarantineKey id doc'.mimeType) from hp) hu' h
  unfold dedupAndPromote at h
  rcases visits_send_bind h with rfl | ⟨e, he⟩ | ⟨existing, u, hu, hk⟩
  · exact hw.traced
  · cases (acts_getByChecksum.mp (stores_acts he)).1
  · obtain ⟨hx, rfl⟩ := acts_getByChecksum.mp (stores_acts hu)
    have hx := (Except.ok.inj hx).symm
    cases existing with
    | none => exact hrest hk
    | some e =>
      have hown := (hlookup e hx).trans hid.symm
      simp only [if_neg (not_not.mpr hown)] at hk
      exact hrest hk

/-- A scan that finds nothing to scan, or promotes what it finds, leaves nothing in
quarantine that the row does not name. -/
theorem process_traced {request : Option UploadRequest} (hw : Traced id w)
    (hok : ScanEmpties sv raises id w)
    (h : Visits (Stores sv raises) (process sv id request) w w') : Traced id w' := by
  unfold process at h
  rcases visits_send_bind h with rfl | ⟨e, he⟩ | ⟨loaded, u, hu, hk⟩
  · exact hw
  · cases (acts_getById.mp (stores_acts he)).1
  · obtain ⟨hd, rfl⟩ := acts_getById.mp (stores_acts hu)
    cases loaded with
    | none => exact visits_pure hk ▸ hw
    | some d =>
      have hd := (Except.ok.inj hd).symm
      obtain rfl := Documents.get_id hd
      have hfiled := hw.filed hd
      simp only at hk
      split at hk
      · exact visits_pure hk ▸ hw
      · rename_i hguard
        rcases visits_attempt_send_bind hk with rfl | ⟨r, v, hr, hr'⟩
        · exact hw
        · obtain ⟨rfl, ⟨e, rfl⟩ | ⟨data, hobj, rfl⟩⟩ := acts_getObject (stores_acts hr)
          · refine (filed_of_visits hr' ?_ hfiled).traced
            exact sends_bind (sends_perform fun _ => hfiled.row d hd) fun _ => trivial
          · rcases hok with hidle | ⟨rfl, hpromotes⟩
            · rw [hidle d hd hguard] at hobj
              cases hobj
            · obtain ⟨hvalid, hlookup⟩ := hpromotes d data hd hguard hobj
              rcases hw d hd with hp | ⟨hp, he⟩
              · have hkey : quarantineKeyFor d = buildQuarantineKey d.id d.mimeType := by
                  rw [quarantineKeyFor, hp, Option.getD_some]
                simp only [hvalid, if_true, hkey] at hr'
                simp only [hp, Option.isNone_some] at hfiled
                let doc : Document :=
                  { d with checksum := some (sv.validateDocument data d.mimeType).sha256 }
                exact dedup_traced (show doc.id = d.id from rfl)
                  (show doc.quarantinePath = some (buildQuarantineKey d.id doc.mimeType) from hp)
                  hfiled hlookup hr'
              · rw [quarantineKeyFor, hp, Option.getD_none, he] at hobj
                cases hobj

section Residue

variable {d row doc : Document} {data : Bytes}

theorem residue_of_row (hr : w.doc id = some row) (hp : row.quarantinePath = none)
    (hobj : w.objects .quarantine (buildQuarantineKey id row.mimeType) = some data) :
    ¬ NoResidue id w := by
  intro hno
  rw [hno row hr hp] at hobj
  cases hobj

/-- The write that drops the path, with the file still in quarantine. -/
theorem forgets (sv : Services) (raises : Bool) {k : Unit → Stage UploadResponse} (hr : w.doc doc.id = some row)
    (ha : doc.active = false) (hp : doc.quarantinePath = none)
    (hobj : w.objects .quarantine (buildQuarantineKey doc.id doc.mimeType) = some data) :
    ∃ w', Visits (Stores sv raises) (send (.updateDocument doc) >>= k) w w' ∧
      ¬ NoResidue doc.id w' := by
  cases ht : w.documents.updateDocument doc with
  | none =>
    have hact := (Documents.updateDocument_eq_none ht hr).1
    rw [ha] at hact
    cases hact
  | some t =>
    have hwrite : Healthy sv (.updateDocument doc) w (.ok ()) { w with documents := t } := by
      simp only [Healthy, effect, ht, World.commit]
    have hrow := Documents.updateDocument_get ht hr
    refine ⟨{ w with documents := t }, ?_, residue_of_row hrow hp hobj⟩
    exact (Ends.visits (ends_perform.mpr (healthy_stores hwrite))).bind_left

/-- A scan that finds an unfinished document and its file goes on to what it makes of it. -/
theorem process_visits_of {request : Option UploadRequest} (hd : w.doc d.id = some d)
    (hguard : ¬ Guarded d) (hobj : w.objects .quarantine (quarantineKeyFor d) = some data)
    (h : Visits (Stores sv raises)
      (if (sv.validateDocument data d.mimeType).isValid then
        dedupAndPromote
          { d with checksum := some (sv.validateDocument data d.mimeType).sha256 }
          (quarantineKeyFor d) (sv.validateDocument data d.mimeType) request
      else reject d (sv.validateDocument data d.mimeType)) w w') :
    Visits (Stores sv raises) (process sv d.id request) w w' := by
  have hget : Healthy sv (.getById d.id) w (.ok (some d)) w := by
    simp only [Healthy, effect, hd]
  have hread : Healthy sv (.getObject .quarantine (quarantineKeyFor d)) w (.ok data) w :=
    effect_getObject_fine hobj
  have hguard' : ¬ (d.status ∈ promotedStatuses ∨ d.status ∈ finalizedStatuses) := hguard
  unfold process
  refine Ends.bind_visits (ends_perform.mpr (healthy_stores hget)) ?_
  simp only [if_neg hguard']
  exact Ends.bind_visits
    (ends_attempt.mpr ⟨_, rfl, ends_perform.mpr (healthy_stores hread)⟩) h

theorem objects_of_acts {op : Op} {r : Except Exn op.Resp} (hop : op.writesStores = false)
    (h : Acts sv op w r w') : w'.objects = w.objects := by
  rcases acts_objects h with ho | ⟨b, k, v, -, ⟨v', rfl⟩ | ⟨b', k', rfl⟩⟩ | ⟨b, k, -, rfl⟩
  · exact ho
  · cases hop
  · cases hop
  · cases hop

theorem escalate_stores_nothing (canonical : Document) (incoming : Option Classification) :
    (escalateTierIfStricter canonical incoming).Sends (fun op => op.writesStores = false)
      (fun _ _ => True) := by
  unfold escalateTierIfStricter
  split
  · trivial
  · split
    · refine sends_bind (sends_perform rfl) fun _ => ?_
      exact sends_bind (sends_perform rfl) fun _ => trivial
    · trivial

theorem duplicate_forgets (sv : Services) (raises : Bool) {e : Document} (sha256 : Sha256)
    (hr : w.doc doc.id = some row)
    (hne : e.id ≠ doc.id)
    (hobj : w.objects .quarantine (buildQuarantineKey doc.id doc.mimeType) = some data) :
    ∃ w', Visits (Stores sv raises)
      (ScanJobHandler.duplicate doc (buildQuarantineKey doc.id doc.mimeType) sha256 e) w w' ∧
      ¬ NoResidue doc.id w' := by
  have hends : ∃ o u, Ends (Healthy sv) (escalateTierIfStricter e doc.classification) w o u :=
    exists_ends exists_healthy _ _
  obtain ⟨o, u, hu⟩ := hends
  have hacts := hu.mono fun _ _ _ _ => healthy_acts
  obtain ⟨a, rfl⟩ := escalate_ends hacts
  have hrow : u.doc doc.id = some row := (doc_of_ends hacts (escalate_sends hne)).trans hr
  have hkept : u.objects = w.objects := by
    exact hacts.invariant (I := fun s : World => s.objects = w.objects)
      (escalate_stores_nothing e doc.classification)
      (fun _ _ _ _ hop ha hs => (objects_of_acts hop ha).trans hs) rfl
  let copy : Document := { doc with status := .duplicate, quarantinePath := none }
  obtain ⟨w', hw', hno⟩ := forgets sv raises (show u.doc copy.id = some row from hrow) rfl rfl
    (hkept ▸ hobj)
  exact ⟨w', Ends.bind_visits (hu.mono fun _ _ _ _ => healthy_stores) hw', hno⟩

/-- A move whose delete fails without a word is reported as done. -/
theorem moveToRaw_silent (sv : Services) {key : ObjectKey} (rawKey : ObjectKey)
    (hobj : w.objects .quarantine key = some data) :
    ∃ u, Ends (Stores sv false) (moveToRaw key rawKey) w (.ok ()) u ∧
      u.documents = w.documents ∧ u.objects .quarantine key = some data := by
  have hdel : ∀ u : World, Stores sv false (.deleteObject .quarantine key) u (.ok false) u :=
    fun u => ⟨.silent, rfl, fun hf => by cases hf⟩
  have hexists : Healthy sv (.objectExists .raw rawKey) w
      (.ok (w.objects .raw rawKey).isSome) w := by
    simp [Healthy, effect]
  unfold moveToRaw
  cases hraw : (w.objects .raw rawKey).isSome with
  | true =>
    refine ⟨w, ends_send_bind.mpr (.inr ⟨true, w, healthy_stores (hraw ▸ hexists), ?_⟩), rfl, hobj⟩
    exact ends_send_bind.mpr (.inr ⟨false, w, hdel w, ends_ret.mpr ⟨rfl, rfl⟩⟩)
  | false =>
    let u := w.setObject .raw rawKey (some data)
    have hcopy : Healthy sv (.copyObject .quarantine key .raw rawKey) w (.ok ()) u := by
      simp only [Healthy, effect, hobj, found, u]
    refine ⟨u, ends_send_bind.mpr (.inr ⟨false, w, healthy_stores (hraw ▸ hexists), ?_⟩), rfl, ?_⟩
    · refine ends_send_bind.mpr (.inr ⟨(), u, healthy_stores hcopy, ?_⟩)
      exact ends_send_bind.mpr (.inr ⟨false, u, hdel u, ends_ret.mpr ⟨rfl, rfl⟩⟩)
    · exact (setObject_objects_other (by decide) _ _ _ _).trans hobj

/-- A promotion after such a move records that quarantine is empty. -/
theorem promote_forgets (sv : Services) (v : ValidationResult) (hr : w.doc doc.id = some row)
    (hobj : w.objects .quarantine (buildQuarantineKey doc.id doc.mimeType) = some data) :
    ∃ w', Visits (Stores sv false)
      (promote doc (buildQuarantineKey doc.id doc.mimeType) v) w w' ∧ ¬ NoResidue doc.id w' := by
  obtain ⟨u, hu, hdocs, hobj'⟩ := moveToRaw_silent sv
    (buildRawKey v.sha256 doc.mimeType) hobj
  have hru : u.doc doc.id = some row := by
    rw [World.doc, hdocs]
    exact hr
  have hmoved := ends_attempt.mpr ⟨_, rfl, hu⟩
  cases ht : u.documents.updateDocument (promoted doc v) with
  | some t =>
    have hwrite : Healthy sv (.updateDocument (promoted doc v)) u (.ok ())
        { u with documents := t } := by
      simp only [Healthy, effect, ht, World.commit]
    have hrow := Documents.updateDocument_get ht hru
    refine ⟨{ u with documents := t }, ?_, residue_of_row hrow rfl hobj'⟩
    refine Ends.bind_visits hmoved (Visits.bind_left ?_)
    exact (ends_attempt.mpr ⟨_, rfl, ends_perform.mpr (healthy_stores hwrite)⟩).visits
  | none =>
    have hrefused : Healthy sv (.updateDocument (promoted doc v)) u (.error .integrityError) u := by
      simp only [Healthy, effect, ht, World.commit]
    let copy : Document := { promoted doc v with status := .duplicate, rawPath := none }
    obtain ⟨w', hw', hno⟩ := forgets sv false (show u.doc copy.id = some row from hru) rfl rfl hobj'
    refine ⟨w', Ends.bind_visits hmoved ?_, hno⟩
    exact Ends.bind_visits
      (ends_attempt.mpr ⟨_, rfl, ends_perform.mpr (healthy_stores hrefused)⟩) hw'

/-- A scan that does find a file, and may come to another end than a promotion or delete
without effect, can leave a file that the row does not name. -/
theorem residue_of_scan (hw : Traced id w) (hno : ¬ ScanEmpties sv raises id w) :
    ∃ w', ScanRuns sv raises id w w' ∧ ¬ NoResidue id w' := by
  simp only [ScanEmpties, not_or, ScanIdle, not_forall] at hno
  obtain ⟨⟨d, hd, hguard, hsome⟩, hpromotes⟩ := hno
  obtain rfl := Documents.get_id hd
  obtain ⟨data, hobj⟩ := Option.ne_none_iff_exists'.mp hsome
  have hkey : quarantineKeyFor d = buildQuarantineKey d.id d.mimeType := by
    rcases hw d hd with hp | ⟨hp, -⟩ <;> simp [quarantineKeyFor, hp]
  have hkept := hkey ▸ hobj
  let v := sv.validateDocument data d.mimeType
  by_cases hvalid : v.isValid = true
  · let doc : Document := { d with checksum := some v.sha256 }
    have hget : Healthy sv (.getByChecksum v.sha256) w
        (.ok (w.documents.getByChecksum v.sha256)) w := rfl
    have hlook : Ends (Stores sv raises) (send (.getByChecksum v.sha256)) w
        (.ok (w.documents.getByChecksum v.sha256)) w := ends_perform.mpr (healthy_stores hget)
    have hscan : ∀ w', Visits (Stores sv raises)
        (dedupAndPromote doc (buildQuarantineKey d.id d.mimeType) v none) w w' →
        ScanRuns sv raises d.id w w' := by
      intro w' h
      refine ⟨none, process_visits_of hd hguard hobj ?_⟩
      rw [if_pos hvalid, hkey]
      exact h
    by_cases hown : ∀ e, w.documents.getByChecksum v.sha256 = some e → e.id = d.id
    · -- the promotion is what a scan has come to, so the delete fails without a word
      have hsilent : raises = false := by
        cases raises with
        | false => rfl
        | true =>
          refine absurd ⟨rfl, ?_⟩ hpromotes
          intro e data' he _ hobj'
          obtain rfl := Option.some.inj (hd.symm.trans he)
          obtain rfl := Option.some.inj (hobj.symm.trans hobj')
          exact ⟨hvalid, hown⟩
      subst hsilent
      obtain ⟨w', hw', hres⟩ := promote_forgets sv v
        (show w.doc doc.id = some d from hd) (show w.objects .quarantine
          (buildQuarantineKey doc.id doc.mimeType) = some data from hkept)
      refine ⟨w', hscan w' (Ends.bind_visits hlook ?_), hres⟩
      cases hx : w.documents.getByChecksum v.sha256 with
      | none => exact hw'
      | some e =>
        have hid : ¬ e.id ≠ doc.id := not_not.mpr (hown e hx)
        simp only [if_neg hid]
        exact hw'
    · simp only [not_forall] at hown
      obtain ⟨e, hx, hne⟩ := hown
      have hne : e.id ≠ doc.id := hne
      obtain ⟨w', hw', hres⟩ := duplicate_forgets sv raises v.sha256
        (show w.doc doc.id = some d from hd) hne hkept
      refine ⟨w', hscan w' (Ends.bind_visits hlook ?_), hres⟩
      simp only [hx, if_pos hne]
      exact hw'
  · let doc : Document := { d with
      status := .rejected, rejectionReason := v.rejectionReason, quarantinePath := none }
    obtain ⟨w', hw', hres⟩ := forgets sv raises
      (show w.doc doc.id = some d from hd) rfl rfl hkept
    refine ⟨w', ⟨none, process_visits_of hd hguard hobj ?_⟩, hres⟩
    rw [if_neg hvalid]
    exact hw'

end Residue

/-- As long as every scan of the document finds nothing to scan or comes to the
promotion, and no failed delete is passed over, whatever is cut off or fails leaves
nothing behind; a scan of any other state can. -/
theorem no_residue (hw : Traced id w) :
    (∀ w', Rescans sv raises (ScanEmpties sv raises id) id w w' → NoResidue id w') ∧
      ((∀ w', ScanRuns sv raises id w w' → NoResidue id w') → ScanEmpties sv raises id w) := by
  constructor
  · intro w' h
    refine Traced.noResidue ?_
    induction h with
    | refl => exact hw
    | tail _ hstep ih =>
      obtain ⟨hok, request, hrun⟩ := hstep
      exact process_traced ih hok hrun
  · intro hall
    by_contra hno
    obtain ⟨w', hrun, hres⟩ := residue_of_scan hw hno
    exact hres (hall w' hrun)

/-- A scan that dies between the delete and the commit, and the scan after it, leave
nothing in quarantine. -/
theorem rescan_leaves_nothing : NoResidue 0 (runHealthy (crashedAfter 6)).2 := by
  have hstart : Traced 0 quarantinedWorld := by
    intro d hd
    obtain rfl := Option.some.inj hd
    exact .inl rfl
  have hscan : ScanPromotes plainServices 0 quarantinedWorld := by
    intro d data hd _ _
    have hnone : quarantinedWorld.documents.getByChecksum
        (plainServices.validateDocument data d.mimeType).sha256 = none := rfl
    refine ⟨rfl, fun e he => ?_⟩
    rw [hnone] at he
    cases he
  have hidle : ScanIdle 0 (crashedAfter 6) := by
    intro d hd _
    have hrow : (crashedAfter 6).doc 0 = some (uploadedRow 0 id) := by decide +kernel
    obtain rfl := Option.some.inj (hrow.symm.trans hd)
    decide +kernel
  have hfirst : ScanRuns plainServices true 0 quarantinedWorld (crashedAfter 6) :=
    ⟨none, (processJob_scan_visits (crashedAfter_visited 6)).mono fun _ _ _ _ => healthy_stores⟩
  have hsecond : ScanRuns plainServices true 0 (crashedAfter 6) (runHealthy (crashedAfter 6)).2 :=
    ⟨none, (processJob_scan_visits (runHealthy_ends _).visits).mono
      fun _ _ _ _ => healthy_stores⟩
  exact (no_residue hstart).1 _
    (.tail (.single ⟨.inr ⟨rfl, hscan⟩, hfirst⟩) ⟨.inl hidle, hsecond⟩)

/-- No file passes the checks. -/
def strictServices : Services :=
  { plainServices with
    validateDocument := fun _ _ =>
      { isValid := false, sha256 := "", pageCount := none, rejectionReason := some "INFECTED" } }

/-- The delete is the fifth operation of a scan that rejects. -/
def rejectedRun : World :=
  (run (effect strictServices) (fun n => if n = 4 then .fails "timeout" else .fine)
    (process strictServices 0 none) quarantinedWorld).2

/-- The row says REJECTED and names no path before the delete times out; the next run takes
the document as finished and the infected file stays. -/
theorem rejected_file_left :
    ¬ ∀ (sv : Services) (raises : Bool) (id : DocumentId) (w w' : World), Traced id w →
      Rescans sv raises (fun _ => True) id w w' → NoResidue id w' := by
  intro hall
  have hstart : Traced 0 quarantinedWorld := by
    intro d hd
    obtain rfl := Option.some.inj hd
    exact .inl rfl
  have hrun : ScanRuns strictServices true 0 quarantinedWorld rejectedRun := by
    refine ⟨none, (ends_run (fun n op s => ?_) _ _).visits⟩
    refine ⟨_, rfl, fun _ _ _ => ?_⟩
    split <;> simp
  have hres := hall strictServices true 0 _ _ hstart (.single ⟨trivial, hrun⟩)
  have hrow : (rejectedRun.doc 0).map (fun d => (d.quarantinePath, d.mimeType)) =
      some (none, "application/pdf") := by decide +kernel
  have hobj : rejectedRun.objects .quarantine (buildQuarantineKey 0 "application/pdf") =
      some [37] := by decide +kernel
  obtain ⟨d, hd, he⟩ := Option.map_eq_some_iff.mp hrow
  obtain ⟨hp, hm⟩ := Prod.mk.inj he
  have hgone := hres d hd hp
  rw [hm, hobj] at hgone
  cases hgone

end KnowledgeBase
