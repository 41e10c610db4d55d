import KnowledgeBase.ScanJobHandler

/-! How a document is retired in favour of a newer one, hidden, brought back or given
another tier by somebody who is not a stage: each row after it, in full. -/

namespace KnowledgeBase

open Program

namespace DriveSyncService

/-- The link of the new document to the one it replaces. -/
def linkNew (old : Document) (newDoc : Option Document) : Stage Unit :=
  match newDoc with
  | none => return ()
  | some newDoc => do
    let new ← send (.getById newDoc.id)
    match new with
    | none => return ()
    | some new => send (.updateDocument { new with
        supersedesId := some old.id
        -- `(old_doc.version or 1) + 1`
        version := (if old.version = 0 then 1 else old.version) + 1 })

def supersede (oldDoc newDoc : Option Document) : Stage Unit :=
  match oldDoc with
  | none => return ()
  | some oldDoc =>
    if oldDoc.purgedAt ≠ none then return ()
    else do
      let old ← send (.getById oldDoc.id)
      match old with
      | none => return ()
      | some old => do
        send (.updateDocument { old with status := .superseded })
        let _ ← send (.softDelete old.id)
        linkNew old newDoc
        send (.audit old.id .documentSuperseded true)

end DriveSyncService

namespace Document

/-- The row once it is hidden. -/
def hidden (d : Document) (now : Nat) : Document :=
  if d.deletedAt = none ∧ d.purgedAt = none then { d with deletedAt := some now } else d

/-- The row once it is back. -/
def shown (d : Document) : Document :=
  if d.deletedAt ≠ none ∧ d.purgedAt = none then { d with deletedAt := none } else d

def retired (d : Document) (now : Nat) : Document :=
  Document.hidden { d with status := .superseded } now

/-- The row that replaces `old`. -/
def succeeding (d old : Document) : Document :=
  { d with
    supersedesId := some old.id
    version := (if old.version = 0 then 1 else old.version) + 1 }

variable (d : Document) (now : Nat)

@[simp] theorem hidden_id : (d.hidden now).id = d.id := by unfold hidden; split <;> rfl

@[simp] theorem hidden_status : (d.hidden now).status = d.status := by
  unfold hidden; split <;> rfl

@[simp] theorem hidden_checksum : (d.hidden now).checksum = d.checksum := by
  unfold hidden; split <;> rfl

@[simp] theorem hidden_classification : (d.hidden now).classification = d.classification := by
  unfold hidden; split <;> rfl

@[simp] theorem shown_id : d.shown.id = d.id := by unfold shown; split <;> rfl

@[simp] theorem shown_status : d.shown.status = d.status := by unfold shown; split <;> rfl

@[simp] theorem shown_checksum : d.shown.checksum = d.checksum := by unfold shown; split <;> rfl

@[simp] theorem shown_classification : d.shown.classification = d.classification := by
  unfold shown; split <;> rfl

@[simp] theorem retired_id : (d.retired now).id = d.id := by simp [retired]

@[simp] theorem retired_status : (d.retired now).status = .superseded := by simp [retired]

@[simp] theorem retired_checksum : (d.retired now).checksum = d.checksum := by simp [retired]

@[simp] theorem retired_classification : (d.retired now).classification = d.classification := by
  simp [retired]

@[simp] theorem hidden_purgedAt : (d.hidden now).purgedAt = d.purgedAt := by
  unfold hidden; split <;> rfl

@[simp] theorem hidden_rawPath : (d.hidden now).rawPath = d.rawPath := by
  unfold hidden; split <;> rfl

@[simp] theorem hidden_quarantinePath : (d.hidden now).quarantinePath = d.quarantinePath := by
  unfold hidden; split <;> rfl

@[simp] theorem shown_quarantinePath : d.shown.quarantinePath = d.quarantinePath := by
  unfold shown; split <;> rfl

@[simp] theorem shown_purgedAt : d.shown.purgedAt = d.purgedAt := by unfold shown; split <;> rfl

@[simp] theorem shown_rawPath : d.shown.rawPath = d.rawPath := by unfold shown; split <;> rfl

@[simp] theorem retired_purgedAt : (d.retired now).purgedAt = d.purgedAt := by simp [retired]

@[simp] theorem retired_rawPath : (d.retired now).rawPath = d.rawPath := by simp [retired]

end Document

section Rows

variable {w : World} {id : DocumentId} {row : Document}

/-- A column the index does not look at is written without fail. -/
theorem modify_doc {f : Document → Document} (hr : w.doc id = some row)
    (hf : ∀ r, (f r).status = r.status ∧ (f r).checksum = r.checksum ∧ (f r).id = r.id) :
    ∃ t, w.documents.modify id f = some t ∧ t.get id = some (f row) := by
  have ha : (f row).active = true → row.active = true := by
    rw [Document.active, Document.active, (hf row).1]
    exact fun h => h
  obtain ⟨t, ht⟩ := Documents.modify_accepted hr ha (hf row).2.1
  refine ⟨t, ht, ?_⟩
  have hid : (f row).id = id := (hf row).2.2.trans (Documents.get_id hr)
  rw [Documents.modify_get_self ht hr, ← hid]

theorem softDelete_doc (hr : w.doc id = some row) :
    (w.softDelete id).2.doc id = some (row.hidden w.now) := by
  unfold World.softDelete Document.hidden
  rw [hr]
  by_cases h : row.deletedAt = none ∧ row.purgedAt = none
  · obtain ⟨t, ht, hget⟩ := modify_doc (f := fun r => { r with deletedAt := some w.now }) hr
      fun _ => ⟨rfl, rfl, rfl⟩
    have hb : (decide (row.deletedAt = none) && decide (row.purgedAt = none)) = true := by
      simpa using h
    simp only [hb, if_true, if_pos h, ht]
    exact hget
  · have hb : (decide (row.deletedAt = none) && decide (row.purgedAt = none)) = false := by
      simpa using h
    simp only [hb, Bool.false_eq_true, if_false, if_neg h]
    exact hr

theorem restore_doc (hr : w.doc id = some row) :
    (w.restore id).2.doc id = some row.shown := by
  unfold World.restore Document.shown
  rw [hr]
  by_cases h : row.deletedAt ≠ none ∧ row.purgedAt = none
  · obtain ⟨t, ht, hget⟩ := modify_doc (f := fun r => { r with deletedAt := none }) hr
      fun _ => ⟨rfl, rfl, rfl⟩
    have hb : (decide (row.deletedAt ≠ none) && decide (row.purgedAt = none)) = true := by
      simpa using h
    simp only [hb, if_true, if_pos h, ht]
    exact hget
  · have hb : (decide (row.deletedAt ≠ none) && decide (row.purgedAt = none)) = false := by
      rw [Bool.and_eq_false_iff, decide_eq_false_iff_not, decide_eq_false_iff_not]
      exact not_and_or.mp h
    simp only [hb, Bool.false_eq_true, if_false, if_neg h]
    exact hr

theorem setClassification_doc {tier : Classification} (hr : w.doc id = some row) :
    (w.setClassification id tier).doc id = some { row with classification := some tier } := by
  obtain ⟨t, ht, hget⟩ := modify_doc (f := fun r => { r with classification := some tier }) hr
    fun _ => ⟨rfl, rfl, rfl⟩
  unfold World.setClassification
  rw [ht]
  exact hget

/-- Every row after one is hidden. -/
theorem softDelete_docs (id j : DocumentId) :
    (w.softDelete id).2.doc j = (w.doc j).map fun r => if j = id then r.hidden w.now else r := by
  by_cases hj : j = id
  · subst hj
    cases hr : w.doc j with
    | none => simp [World.softDelete, hr]
    | some row => simp [softDelete_doc hr]
  · simp [softDelete_doc_other hj, hj]

theorem restore_docs (id j : DocumentId) :
    (w.restore id).2.doc j = (w.doc j).map fun r => if j = id then r.shown else r := by
  by_cases hj : j = id
  · subst hj
    cases hr : w.doc j with
    | none => simp [World.restore, hr]
    | some row => simp [restore_doc hr]
  · simp [restore_doc_other hj, hj]

theorem setClassification_docs (id j : DocumentId) (tier : Classification) :
    (w.setClassification id tier).doc j =
      (w.doc j).map fun r => if j = id then { r with classification := some tier } else r := by
  by_cases hj : j = id
  · subst hj
    cases hr : w.doc j with
    | none =>
      unfold World.setClassification
      split
      · exact hr
      · rename_i t ht
        show t.get j = _
        rw [Documents.modify_get ht]
        have hr' : w.documents.get j = none := hr
        rw [hr']
        rfl
    | some row => simp [setClassification_doc hr]
  · simp [setClassification_doc_other hj, hj]

end Rows

section Supersede

variable {β : Type} {sv : Services} {w w' : World} {o : Except Exn Unit} {row doc : Document}

/-- A write-back that keeps the hash and makes nothing active goes through. -/
theorem acts_updateDocument_own {r : Except Exn Unit} (h : Acts sv (.updateDocument doc) w r w')
    (hr : w.doc doc.id = some row) (ha : doc.active = true → row.active = true)
    (hc : doc.checksum = row.checksum) :
    r = .ok () ∧ w'.doc doc.id = some (doc.writeBack row) ∧
      (∀ j, j ≠ doc.id → w'.doc j = w.doc j) ∧ w'.now = w.now := by
  obtain ⟨t, ht⟩ := Documents.modify_accepted (f := doc.writeBack) hr ha hc
  have hup : w.documents.updateDocument doc = some t := by
    have hr' : w.documents.get doc.id = some row := hr
    rw [Documents.updateDocument, hr', Option.isSome_some, if_pos rfl]
    exact ht
  rcases acts_updateDocument.mp h with ⟨hn, -, -⟩ | ⟨t', ht', rfl, rfl⟩
  · rw [hup] at hn
    cases hn
  · obtain rfl := Option.some.inj (hup.symm.trans ht')
    exact ⟨rfl, Documents.updateDocument_get hup hr,
      fun j hj => Documents.updateDocument_get_other hup hj, rfl⟩

theorem softDelete_now (id : DocumentId) : (w.softDelete id).2.now = w.now := by
  unfold World.softDelete
  split
  · rfl
  · split
    · split <;> rfl
    · rfl

theorem acts_softDelete {id : DocumentId} {r : Except Exn Bool}
    (h : Acts sv (.softDelete id) w r w') : (∃ b, r = .ok b) ∧ w' = (w.softDelete id).2 := by
  obtain ⟨c, hc⟩ := h
  obtain ⟨rfl, rfl⟩ := Prod.mk.inj hc
  exact ⟨⟨_, rfl⟩, rfl⟩

/-- A row that is there stays, and whether it is a tombstone does not change. -/
theorem purgedAt_of_acts {op : Op} {r : Except Exn op.Resp} {id : DocumentId}
    (h : Acts sv op w r w') (hr : w.doc id = some row) :
    ∃ row', w'.doc id = some row' ∧ row'.purgedAt = row.purgedAt := by
  by_cases hrow : op.row = some id
  · cases op
    case create doc =>
      rcases acts_create.mp h with ⟨-, -, rfl⟩ | ⟨t, ht, -, rfl⟩
      · exact ⟨row, hr, rfl⟩
      · obtain rfl : doc.id = id := Option.some.inj hrow
        have hfresh : w.doc doc.created.id = none := Documents.insert_fresh ht
        have hr' : w.doc doc.created.id = some row := hr
        rw [hr'] at hfresh
        cases hfresh
    case updateDocument doc =>
      obtain rfl : doc.id = id := Option.some.inj hrow
      rcases acts_updateDocument.mp h with ⟨-, -, rfl⟩ | ⟨t, ht, -, rfl⟩
      · exact ⟨row, hr, rfl⟩
      · exact ⟨doc.writeBack row, Documents.updateDocument_get ht hr, rfl⟩
    case setClassification k tier =>
      obtain ⟨-, rfl⟩ := acts_setClassification.mp h
      rw [setClassification_docs, hr]
      refine ⟨_, rfl, ?_⟩
      split <;> rfl
    case softDelete k =>
      obtain ⟨-, rfl⟩ := acts_softDelete h
      rw [softDelete_docs, hr]
      refine ⟨_, rfl, ?_⟩
      split
      · exact Document.hidden_purgedAt row w.now
      · rfl
    case restore k =>
      obtain ⟨c, hc⟩ := h
      obtain ⟨-, rfl⟩ := Prod.mk.inj hc
      rw [restore_docs, hr]
      refine ⟨_, rfl, ?_⟩
      split
      · exact Document.shown_purgedAt row
      · rfl
    all_goals cases hrow
  · exact ⟨row, (doc_of_acts h hrow).trans hr, rfl⟩

/-- The new document, linked to the old one; everything else is left as it is. -/
theorem linkNew_doc {old : Document} {newDoc : Option Document}
    (h : Ends (Acts sv) (DriveSyncService.linkNew old newDoc) w o w') :
    o = .ok () ∧ w'.now = w.now ∧ ∀ j, w'.doc j = (w.doc j).map fun r =>
      if newDoc.map Document.id = some j then r.succeeding old else r := by
  cases newDoc with
  | none =>
    obtain ⟨rfl, rfl⟩ := ends_ret.mp h
    exact ⟨rfl, rfl, fun j => by simp⟩
  | some n =>
    have hk := ends_getById_bind.mp h
    cases hn : w.doc n.id with
    | none =>
      rw [hn] at hk
      obtain ⟨rfl, rfl⟩ := ends_ret.mp hk
      refine ⟨rfl, rfl, fun j => ?_⟩
      by_cases hj : n.id = j
      · rw [← hj, hn]
        rfl
      · simp [hj]
    | some new =>
      rw [hn] at hk
      have hact : Acts sv (.updateDocument (new.succeeding old)) w o w' := ends_perform.mp hk
      have hid : new.id = n.id := Documents.get_id hn
      have hrow : w.doc (new.succeeding old).id = some new := by
        show w.doc new.id = _
        rw [hid]
        exact hn
      obtain ⟨rfl, hself, hother, hnow⟩ := acts_updateDocument_own hact hrow (fun ha => ha) rfl
      refine ⟨rfl, hnow, fun j => ?_⟩
      by_cases hj : n.id = j
      · subst hj
        have hself' : w'.doc new.id = some (new.succeeding old) := hself
        rw [hid] at hself'
        rw [hself', hn, Option.map_some, Option.map_some, if_pos rfl]
      · have hne : j ≠ (new.succeeding old).id := fun he => hj (hid.symm.trans he.symm)
        rw [hother j hne]
        simp [hj]

/-- All rows after a document has been retired in favour of another. -/
theorem supersede_doc {old : Document} {newDoc : Option Document} (hold : w.doc old.id = some old)
    (hp : old.purgedAt = none)
    (h : Ends (Acts sv) (DriveSyncService.supersede (some old) newDoc) w o w') (j : DocumentId) :
    w'.doc j = (w.doc j).map fun r =>
      let r' := if j = old.id then r.retired w.now else r
      if newDoc.map Document.id = some j then r'.succeeding old else r' := by
  rw [DriveSyncService.supersede, if_neg (not_not.mpr hp), ends_getById_bind, hold] at h
  have hown : ∀ {r : Except Exn Unit} {u : World},
      Acts sv (.updateDocument { old with status := .superseded }) w r u →
      r = .ok () ∧ u.doc old.id = some { old with status := .superseded } ∧
        (∀ j, j ≠ old.id → u.doc j = w.doc j) ∧ u.now = w.now := by
    intro r u hu
    have hrow : w.doc ({ old with status := .superseded } : Document).id = some old := hold
    exact acts_updateDocument_own hu hrow nofun rfl
  rcases ends_send_bind.mp h with ⟨e, he, -⟩ | ⟨_, u, hu, h⟩
  · cases (hown he).1
  · obtain ⟨-, hself, hother, hnow⟩ := hown hu
    rcases ends_send_bind.mp h with ⟨e, he, -⟩ | ⟨b, v, hv, h⟩
    · obtain ⟨⟨b, hb⟩, -⟩ := acts_softDelete he
      cases hb
    · obtain ⟨-, rfl⟩ := acts_softDelete hv
      have hvj : (u.softDelete old.id).2.doc j =
          (w.doc j).map fun r => if j = old.id then r.retired w.now else r := by
        by_cases hj : j = old.id
        · subst hj
          rw [softDelete_doc hself, hold, Option.map_some, if_pos rfl, Document.retired, hnow]
        · rw [softDelete_doc_other hj, hother j hj]
          simp [hj]
      have hlink : ∃ q, Ends (Acts sv) (DriveSyncService.linkNew old newDoc)
          (u.softDelete old.id).2 (.ok ()) q ∧ w'.doc j = q.doc j := by
        rcases ends_bind.mp h with ⟨e, he, -⟩ | ⟨_, q, hq, h⟩
        · cases (linkNew_doc he).1
        · obtain ⟨-, a, rfl⟩ := acts_audit (ends_perform.mp h)
          exact ⟨q, hq, rfl⟩
      obtain ⟨q, hq, hwq⟩ := hlink
      rw [hwq, (linkNew_doc hq).2.2 j, hvj, Option.map_map]
      rfl

end Supersede

end KnowledgeBase
