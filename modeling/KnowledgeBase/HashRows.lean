import KnowledgeBase.Dedup
import KnowledgeBase.StageRows

/-! What the stages make of a document's hash. The scan alone sets it, to the hash of the file
it finds in quarantine, and then the document is either the one that has this hash or is
dropped for that one. -/

namespace KnowledgeBase

open Program ScanJobHandler

/-- Everything a stage can do to the row of its document. -/
inductive Hashing (sv : Services) (stage : JobStage) (w w' : World) (r r' : Document) : Prop
  | same (h : r' = r)
  | passes (hstage : stage ≠ .scan) (hidle : ¬ Idle stage r.status)
      (hc : r'.checksum = r.checksum) (hs : r'.status ∈ exitStatuses stage)
  | unreads (hstage : stage = .scan) (hidle : ¬ Idle stage r.status)
      (hc : r'.checksum = r.checksum) (hs : r'.status = .validationFailed)
  | rejects (data : Bytes) (hstage : stage = .scan) (hidle : ¬ Idle stage r.status)
      (hobj : w.objects .quarantine (quarantineKeyFor r) = some data)
      (hv : (sv.validateDocument data r.mimeType).isValid = false)
      (hc : r'.checksum = r.checksum) (hs : r'.status = .rejected)
  | claims (data : Bytes) (hstage : stage = .scan) (hidle : ¬ Idle stage r.status)
      (hobj : w.objects .quarantine (quarantineKeyFor r) = some data)
      (hv : (sv.validateDocument data r.mimeType).isValid = true)
      (hfree : HashFree w r.id (some (sv.validateDocument data r.mimeType).sha256))
      (hc : r'.checksum = some (sv.validateDocument data r.mimeType).sha256)
      (hs : r'.status = .validated ∨ r'.status = .validationFailed)
  | drops (data : Bytes) (e : Document) (hstage : stage = .scan) (hidle : ¬ Idle stage r.status)
      (hobj : w.objects .quarantine (quarantineKeyFor r) = some data)
      (hv : (sv.validateDocument data r.mimeType).isValid = true)
      (he : w.documents.getByChecksum (sv.validateDocument data r.mimeType).sha256 = some e)
      (hne : e.id ≠ r.id)
      (hc : r'.checksum = some (sv.validateDocument data r.mimeType).sha256)
      (hs : r'.status = .duplicate)
      (hraised : r.classification = some .restricted →
        ∃ e', w'.doc e.id = some e' ∧ e'.classification = some .restricted)

/-- The columns that say which file a document is of. -/
def SameFile (r r' : Document) : Prop :=
  r'.mimeType = r.mimeType ∧
    (r'.quarantinePath = r.quarantinePath ∨ r'.quarantinePath = none)

theorem SameFile.refl (r : Document) : SameFile r r := ⟨rfl, .inl rfl⟩

section Handled

variable {α : Type} {sv : Services} {stage : JobStage} {w w' : World} {p : Stage α}
  {doc row : Document}

/-- The row is as it was, or has been written by the stage. -/
theorem row_of_handled (h : Visits (Acts sv) p w w')
    (hp : p.Sends (Handles stage doc) (fun _ _ => True)) (hr : w.doc doc.id = some row) :
    ∃ r', w'.doc doc.id = some r' ∧ (r' = row ∨ r'.status ∈ exitStatuses stage ∧
      r'.checksum = doc.checksum ∧ r'.mimeType = doc.mimeType ∧
      (r'.quarantinePath = doc.quarantinePath ∨ r'.quarantinePath = none)) := by
  refine h.invariant (I := fun u : World => ∃ r', u.doc doc.id = some r' ∧ (r' = row ∨
    r'.status ∈ exitStatuses stage ∧ r'.checksum = doc.checksum ∧ r'.mimeType = doc.mimeType ∧
      (r'.quarantinePath = doc.quarantinePath ∨ r'.quarantinePath = none))) hp ?_
    ⟨row, hr, .inl rfl⟩
  rintro op u r u' hop ha ⟨r', hr', hcases⟩
  by_cases hrow : op.row = some doc.id
  · cases op
    case updateDocument d =>
      obtain ⟨⟨hid, hs⟩, hc, hm, hq, -⟩ := hop
      rcases acts_updateDocument.mp ha with ⟨-, -, rfl⟩ | ⟨t, ht, -, rfl⟩
      · exact ⟨r', hr', hcases⟩
      · have hd : u.documents.get d.id = some r' := by rw [hid]; exact hr'
        refine ⟨d.writeBack r', ?_, .inr ⟨hs, hc, hm, hq⟩⟩
        rw [← hid]
        exact Documents.updateDocument_get ht hd
    case setClassification k tier => exact absurd (Option.some.inj hrow) hop.1
    case create | softDelete | restore => exact hop.elim
    all_goals cases hrow
  · exact ⟨r', (doc_of_acts ha hrow).trans hr', hcases⟩

/-- No file comes into quarantine. -/
theorem quarantine_of_handled (h : Visits (Acts sv) p w w')
    (hp : p.Sends (Handles stage doc) (fun _ _ => True)) (k : ObjectKey) :
    w'.objects .quarantine k = w.objects .quarantine k ∨ w'.objects .quarantine k = none := by
  refine h.invariant (I := fun u : World => u.objects .quarantine k = w.objects .quarantine k ∨
    u.objects .quarantine k = none) hp ?_ (.inl rfl)
  intro op u r u' hop ha hu
  rcases acts_objects ha with he | ⟨b, k', v, he, hput⟩ | ⟨b, k', he, rfl⟩
  · rwa [he]
  · rcases hput with ⟨v', rfl⟩ | ⟨b', k'', rfl⟩
    · exact hop.elim
    · obtain rfl : b = .raw := hop
      rw [he, setObject_objects_other (by decide)]
      exact hu
  · rw [he]
    by_cases hb : b = .quarantine
    · subst hb
      by_cases hk : k = k'
      · subst hk
        exact .inr (setObject_objects_self _ _ _ _)
      · simpa [World.setObject, Function.update_of_ne hk] using hu
    · rw [setObject_objects_other (Ne.symm hb)]
      exact hu

end Handled

section Stage

variable {sv : Services} {stage : JobStage} {id : DocumentId} {w w' : World} {r : Document}

theorem stage_file (h : Visits (Acts sv) (processJob sv stage id) w w') (hr : w.doc id = some r) :
    ∃ r', w'.doc id = some r' ∧ SameFile r r' := by
  obtain rfl : r.id = id := Documents.get_id hr
  cases stage_turn h hr with
  | idles hidle => exact ⟨r, hr, .refl r⟩
  | acts doc p w' hidle hid hm hq hraw hc h hp =>
    obtain ⟨r', hr', hcases⟩ := row_of_handled h hp (hid ▸ hr)
    rw [hid] at hr'
    rcases hcases with rfl | ⟨-, -, hm', hq'⟩
    · exact ⟨r', hr', .refl r'⟩
    · exact ⟨r', hr', hm'.trans hm, hq'.imp (fun h => h.trans hq) fun h => h⟩

theorem stage_quarantine (h : Visits (Acts sv) (processJob sv stage id) w w') (k : ObjectKey) :
    w'.objects .quarantine k = w.objects .quarantine k ∨ w'.objects .quarantine k = none := by
  cases hr : w.doc id with
  | none => exact .inl (by rw [missing_works h hr])
  | some r =>
    cases stage_turn h hr with
    | idles hidle => exact .inl rfl
    | acts doc p w' hidle hid hm hq hraw hc h hp => exact quarantine_of_handled h hp k

/-- A copy is dropped only after the tier of the one that stays has been raised. -/
theorem duplicate_row {doc e : Document} {key : ObjectKey} {sha256 : Sha256}
    (h : Visits (Acts sv) (duplicate doc key sha256 e) w w') (hr : w.doc doc.id = some r)
    (he : w.doc e.id = some e) (hne : e.id ≠ doc.id) :
    w'.doc doc.id = some r ∨
      w'.doc doc.id = some (({ doc with status := .duplicate, quarantinePath := none } :
        Document).writeBack r) ∧
      (doc.classification = some .restricted →
        ∃ e', w'.doc e.id = some e' ∧ e'.classification = some .restricted) := by
  unfold duplicate at h
  rcases visits_bind h with h | ⟨escalated, u, hu, h⟩
  · exact .inl ((doc_of_visits h (escalate_sends hne)).trans hr)
  · have hru : u.doc doc.id = some r := (doc_of_ends hu (escalate_sends hne)).trans hr
    have hraised : doc.classification = some .restricted →
        ∃ e', u.doc e.id = some e' ∧ e'.classification = some .restricted := by
      intro hc
      unfold escalateTierIfStricter at hu
      rw [hc] at hu
      dsimp only at hu
      split at hu
      · rw [ends_setClassification_bind] at hu
        obtain ⟨a, hu⟩ := ends_audit_bind hu
        obtain ⟨-, rfl⟩ := ends_ret.mp hu
        exact ⟨_, setClassification_doc he, rfl⟩
      · rename_i hs
        obtain ⟨-, rfl⟩ := ends_ret.mp hu
        refine ⟨e, he, ?_⟩
        rcases hec : e.classification with _ | _ | _
        · exact absurd (by rw [hec]; rfl) hs
        · exact absurd (by rw [hec]; rfl) hs
        · rfl
    obtain ⟨escalated, canonical⟩ := escalated
    have hkept : w'.doc e.id = u.doc e.id := by
      refine doc_of_visits h (sends_bind (sends_perform ?_) fun _ => ?_)
      · exact fun hid => hne (Option.some.inj hid).symm
      · refine sends_bind (sends_perform (by simp [Op.row])) fun _ => ?_
        exact sends_bind (sends_perform (by simp [Op.row])) fun _ => trivial
    have hown := writeBack_of_visits h hru (by
      refine sends_bind (sends_perform (by simp [Op.row])) fun _ => ?_
      exact sends_bind (sends_perform (by simp [Op.row])) fun _ => trivial)
    rcases hown with hown | hown
    · exact .inl hown
    · exact .inr ⟨hown, fun hc => by rw [hkept]; exact hraised hc⟩

/-- The branches of the critical section. -/
theorem dedup_hashing {data : Bytes} (hidle : ¬ Idle .scan r.status) (hr : w.doc r.id = some r)
    (hobj : w.objects .quarantine (quarantineKeyFor r) = some data)
    (hv : (sv.validateDocument data r.mimeType).isValid = true)
    (h : Visits (Acts sv) (dedupAndPromote
      { r with checksum := some (sv.validateDocument data r.mimeType).sha256 }
      (quarantineKeyFor r) (sv.validateDocument data r.mimeType) none) w w') :
    ∃ r', w'.doc r.id = some r' ∧ Hashing sv .scan w w' r r' := by
  have h' := visits_getByChecksum_bind h
  have hpromote : HashFree w r.id (some (sv.validateDocument data r.mimeType).sha256) →
      Visits (Acts sv) (promote
        { r with checksum := some (sv.validateDocument data r.mimeType).sha256 }
        (quarantineKeyFor r) (sv.validateDocument data r.mimeType)) w w' →
      ∃ r', w'.doc r.id = some r' ∧ Hashing sv .scan w w' r r' := by
    intro hfree hp
    rcases promote_row hp hr hfree with hw | hw | hw
    · exact ⟨r, hw, .same rfl⟩
    · exact ⟨_, hw, .claims data rfl hidle hobj hv hfree rfl (.inr rfl)⟩
    · exact ⟨_, hw, .claims data rfl hidle hobj hv hfree rfl (.inl rfl)⟩
  cases hx : w.documents.getByChecksum (sv.validateDocument data r.mimeType).sha256 with
  | none =>
    simp only [hx] at h'
    exact hpromote (hashFree_of_lookup fun e he => by rw [hx] at he; cases he) h'
  | some e =>
    simp only [hx] at h'
    split at h'
    · rename_i hne
      have he : w.doc e.id = some e := (Documents.getByChecksum_spec hx).1
      rcases duplicate_row h' hr he hne with hw | ⟨hw, hraised⟩
      · exact ⟨r, hw, .same rfl⟩
      · exact ⟨_, hw, .drops data e rfl hidle hobj hv hx hne rfl rfl hraised⟩
    · rename_i hid
      refine hpromote (hashFree_of_lookup fun f hf => ?_) h'
      rw [hx] at hf
      exact Option.some.inj hf ▸ not_not.mp hid

theorem scan_hashing (h : Visits (Acts sv) (process sv id none) w w') (hr : w.doc id = some r) :
    ∃ r', w'.doc id = some r' ∧ Hashing sv .scan w w' r r' := by
  obtain rfl : r.id = id := Documents.get_id hr
  have h' := visits_getById_bind h
  simp only [hr] at h'
  split at h'
  · obtain rfl := visits_pure h'
    exact ⟨r, hr, .same rfl⟩
  · rename_i hidle
    rcases visits_attempt_getObject_bind h' with ⟨e, h'⟩ | ⟨data, hobj, h'⟩
    · rcases writeBack_of_visits h' hr trivial with hw | hw
      · exact ⟨r, hw, .same rfl⟩
      · exact ⟨_, hw, .unreads rfl hidle rfl rfl⟩
    · dsimp only at h'
      split at h'
      · rename_i hv
        exact dedup_hashing hidle hr hobj hv h'
      · rename_i hv
        have hw := writeBack_of_visits h' hr (by
          refine sends_bind (sends_perform (by simp [Op.row])) fun _ => ?_
          exact sends_bind (sends_perform (by simp [Op.row])) fun _ => trivial)
        rcases hw with hw | hw
        · exact ⟨r, hw, .same rfl⟩
        · exact ⟨_, hw, .rejects data rfl hidle hobj (Bool.not_eq_true _ ▸ hv) rfl rfl⟩

theorem stage_hashing (h : Visits (Acts sv) (processJob sv stage id) w w') (hr : w.doc id = some r) :
    ∃ r', w'.doc id = some r' ∧ Hashing sv stage w w' r r' := by
  by_cases hstage : stage = .scan
  · subst hstage
    exact scan_hashing (visits_then_pure h) hr
  · obtain rfl : r.id = id := Documents.get_id hr
    cases stage_turn h hr with
    | idles hidle => exact ⟨r, hr, .same rfl⟩
    | acts doc p w' hidle hid hm hq hraw hc h hp =>
      obtain ⟨r', hr', hcases⟩ := row_of_handled h hp (hid ▸ hr)
      rw [hid] at hr'
      refine ⟨r', hr', ?_⟩
      rcases hcases with rfl | ⟨hs, hc', -, -⟩
      · exact .same rfl
      · exact .passes hstage hidle (hc'.trans (hc hstage)) hs

end Stage

end KnowledgeBase
