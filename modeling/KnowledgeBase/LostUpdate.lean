import KnowledgeBase.Conduct
import KnowledgeBase.Supersession

/-! A stage holds a copy of its row while it works and writes it back at the end. What
somebody else writes to the row in between is kept in the columns the write-back leaves
out, and lost in the others. -/

namespace KnowledgeBase

open Program

/-- What others do to a row: each a complete operation. -/
inductive Intervention where
  | supersede (old new : DocumentId)
  | softDelete (id : DocumentId)
  | restore (id : DocumentId)
  | setClassification (id : DocumentId) (tier : Classification)

def Intervention.apply (sv : Services) (luck : Nat → Luck) (w : World) : Intervention → World
  | supersede old new =>
    (run (effect sv) luck (DriveSyncService.supersede (w.doc old) (w.doc new)) w).2
  | softDelete id => (w.softDelete id).2
  | restore id => (w.restore id).2
  | setClassification id tier => w.setClassification id tier

/-- The columns somebody changed are as he left them. -/
structure Survives (before after final : Document) : Prop where
  status : after.status ≠ before.status → final.status = after.status
  version : after.version ≠ before.version → final.version = after.version
  supersedesId : after.supersedesId ≠ before.supersedesId → final.supersedesId = after.supersedesId
  deletedAt : after.deletedAt ≠ before.deletedAt → final.deletedAt = after.deletedAt
  classification :
    after.classification ≠ before.classification → final.classification = after.classification

abbrev Trace := List ((op : Op) × Except Exn op.Resp)

/-- The copy a stage holds after one more answer. -/
def heldNext (id : DocumentId) (held : Option Document) (op : Op) (r : Except Exn op.Resp) :
    Option Document :=
  match op, r with
  | .getById k, .ok (some row) => if k = id then some row else held
  | _, _ => held

def heldCopy (id : DocumentId) (t : Trace) : Option Document :=
  t.foldl (fun held e => heldNext id held e.1 e.2) none

/-- The operation commits a write-back of the row. -/
def Commits (id : DocumentId) (op : Op) (r : Except Exn op.Resp) : Prop :=
  ∃ doc, op = .updateDocument doc ∧ doc.id = id ∧ ∃ a, r = .ok a

/-- A run of a stage, overtaken by somebody else after its first operations. -/
structure Interleaving where
  sv : Services
  stage : JobStage
  id : DocumentId
  start : World
  first : Nat
  luck : Nat → Luck
  other : Intervention
  otherLuck : Nat → Luck
  later : Nat
  laterLuck : Nat → Luck

namespace Interleaving

def begun (c : Interleaving) : Stage JobOutcome × World :=
  after (effect c.sv) c.luck c.first (processJob c.sv c.stage c.id) c.start

def overtaken (c : Interleaving) : World := c.other.apply c.sv c.otherLuck c.begun.2

def ended (c : Interleaving) : World :=
  (after (effect c.sv) c.laterLuck c.later c.begun.1 c.overtaken).2

def firstTrace (c : Interleaving) : Trace :=
  trace (effect c.sv) c.luck c.first (processJob c.sv c.stage c.id) c.start

def laterTrace (c : Interleaving) : Trace :=
  trace (effect c.sv) c.laterLuck c.later c.begun.1 c.overtaken

/-- A write-back of the row comes after what the other has done. -/
def WritesBack (c : Interleaving) : Prop := ∃ e ∈ c.laterTrace, Commits c.id e.1 e.2

/-- The copy that is written back has the columns of versions as the other left them. -/
def CopyAgrees (c : Interleaving) (before after : Document) : Prop :=
  ∀ held, heldCopy c.id (c.firstTrace ++ c.laterTrace) = some held →
    (after.version ≠ before.version → held.version = after.version) ∧
      (after.supersedesId ≠ before.supersedesId → held.supersedesId = after.supersedesId)

end Interleaving

section Held

variable {sv : Services} {d : DocumentId} {x : Conduct}

theorem conduct_held (op : Op) (r : Except Exn op.Resp) :
    ((conduct sv d).next x op r).copy = heldNext d x.copy op r := by
  cases op
  case getById id =>
    rcases r with e | row
    · rfl
    · cases row with
      | none => rfl
      | some row =>
        show (if id = d then _ else _ : Conduct).copy = if id = d then _ else _
        split <;> rfl
  case enqueue id stage =>
    cases r with
    | error e => rfl
    | ok _ =>
      show (if _ then _ else _ : Conduct).copy = _
      split <;> rfl
  case loadChunks id =>
    cases r with
    | error e => rfl
    | ok chunks =>
      show (if _ then _ else _ : Conduct).copy = _
      split <;> rfl
  case writeEmbeddings vs =>
    cases r with
    | error e => rfl
    | ok _ =>
      show (if _ then _ else _ : Conduct).copy = _
      split <;> rfl
  case create | updateDocument => cases r <;> rfl
  all_goals rfl

theorem along_held (t : Trace) :
    ((conduct sv d).along x t).copy = t.foldl (fun held e => heldNext d held e.1 e.2) x.copy := by
  induction t generalizing x with
  | nil => rfl
  | cons e t ih =>
    have hnext : (conduct sv d).along x (e :: t) =
        (conduct sv d).along ((conduct sv d).next x e.1 e.2) t := rfl
    rw [hnext, ih, conduct_held, List.foldl_cons]

/-- A copy is loaded once. -/
theorem held_next {op : Op} {r : Except Exn op.Resp} {row : Document}
    (hop : (conduct sv d).allowed x op) (hx : x.copy = some row) :
    ((conduct sv d).next x op r).copy = some row := by
  rw [conduct_held, hx]
  cases op
  case getById id =>
    have hid : id ≠ d := fun he => by
      have hn := hop.1 he
      rw [hx] at hn
      cases hn
    rcases r with e | row'
    · rfl
    · cases row' with
      | none => rfl
      | some row' => exact if_neg hid
  all_goals rfl

variable {α : Type} {p : Stage α}

theorem held_stays {row : Document} (luck : Nat → Luck) (n : Nat) (w : World)
    (hp : Conducts sv d x p) (hx : x.copy = some row) :
    ((conduct sv d).along x (trace (effect sv) luck n p w)).copy = some row := by
  induction p generalizing luck x w n with
  | ret a => cases n <;> exact hx
  | raise e => cases n <;> exact hx
  | call op next ih =>
    cases n with
    | zero => exact hx
    | succ n => exact ih _ _ n _ (hp.2 _ ⟨w, _, luck 0, rfl⟩) (held_next hp.1 hx)

variable {op : Op} {w w' : World} {r : Except Exn op.Resp} {row : Document}

/-- What one operation of a stage does to the row of its document. -/
theorem row_of_acts (hop : (conduct sv d).allowed x op) (h : Acts sv op w r w')
    (hrow : w.doc d = some row) :
    (w'.doc d = some row ∧ ¬ Commits d op r) ∨
      ∃ doc held, x.copy = some held ∧ SameVersion d held doc ∧ doc.status ≠ .superseded ∧
        Commits d op r ∧ w'.doc d = some (doc.writeBack row) := by
  by_cases hd : op.row = some d
  · cases op
    case create doc =>
      have hid : doc.id = d := Option.some.inj hd
      rcases acts_create.mp h with ⟨-, -, rfl⟩ | ⟨t, ht, -, -⟩
      · exact .inl ⟨hrow, fun ⟨_, he, _⟩ => by cases he⟩
      · have hfree : w.documents.get doc.created.id = none := Documents.insert_fresh ht
        have hcid : doc.created.id = d := hid
        rw [hcid] at hfree
        exact absurd (hfree.symm.trans hrow) nofun
    case updateDocument doc =>
      obtain ⟨⟨held, hx, hv⟩, hs, -⟩ := hop
      rcases acts_updateDocument.mp h with ⟨-, rfl, rfl⟩ | ⟨t, ht, rfl, rfl⟩
      · exact .inl ⟨hrow, fun ⟨_, _, _, _, he⟩ => by cases he⟩
      · refine .inr ⟨doc, held, hx, hv, hs, ⟨doc, rfl, hv.id, (), rfl⟩, ?_⟩
        have hrow' : w.documents.get doc.id = some row := by rw [hv.id]; exact hrow
        have hback := Documents.updateDocument_get ht hrow'
        rw [hv.id] at hback
        exact hback
    case setClassification id tier => exact absurd (Option.some.inj hd) hop.1
    case softDelete | restore => exact hop.elim
    all_goals cases hd
  · refine .inl ⟨(doc_of_acts h hd).trans hrow, ?_⟩
    rintro ⟨doc, rfl, rfl, -⟩
    exact hd rfl

/-- The row after some operations of a stage: as it was, or with the copy written over it
in the columns a write-back takes. -/
theorem row_after (hp : Conducts sv d x p) (luck : Nat → Luck) (n : Nat)
    (hrow : w.doc d = some row) :
    ∃ final, (after (effect sv) luck n p w).2.doc d = some final ∧
      final.deletedAt = row.deletedAt ∧ final.classification = row.classification ∧
      ((final = row ∧ ¬ ∃ e ∈ trace (effect sv) luck n p w, Commits d e.1 e.2) ∨
        (∃ e ∈ trace (effect sv) luck n p w, Commits d e.1 e.2) ∧ final.status ≠ .superseded ∧
          ∃ held, ((conduct sv d).along x (trace (effect sv) luck n p w)).copy = some held ∧
            final.version = held.version ∧ final.supersedesId = held.supersedesId) := by
  induction p generalizing luck x w n row with
  | ret a => cases n <;> exact ⟨row, hrow, rfl, rfl, .inl ⟨rfl, by simp [trace]⟩⟩
  | raise e => cases n <;> exact ⟨row, hrow, rfl, rfl, .inl ⟨rfl, by simp [trace]⟩⟩
  | call op next ih =>
    cases n with
    | zero => exact ⟨row, hrow, rfl, rfl, .inl ⟨rfl, by simp [trace]⟩⟩
    | succ n =>
      have hact : Acts sv op w (effect sv (luck 0) op w).1 (effect sv (luck 0) op w).2 :=
        ⟨luck 0, rfl⟩
      have hq := hp.2 _ ⟨_, _, hact⟩
      rcases row_of_acts hp.1 hact hrow with ⟨hrow', hno⟩ | ⟨doc, held, hx, hv, hs, hc, hrow'⟩
      · obtain ⟨final, hf, hdel, htier, hcase⟩ := ih _ hq (fun k => luck (k + 1)) n hrow'
        refine ⟨final, hf, hdel, htier, ?_⟩
        rcases hcase with ⟨he, hnone⟩ | ⟨⟨e, he, hce⟩, hrest⟩
        · refine .inl ⟨he, ?_⟩
          rintro ⟨e, hm, hce⟩
          rcases List.mem_cons.mp hm with rfl | hm
          · exact hno hce
          · exact hnone ⟨e, hm, hce⟩
        · exact .inr ⟨⟨e, List.mem_cons_of_mem _ he, hce⟩, hrest⟩
      · obtain ⟨final, hf, hdel, htier, hcase⟩ := ih _ hq (fun k => luck (k + 1)) n hrow'
        refine ⟨final, hf, hdel, htier, .inr ⟨⟨_, List.mem_cons_self, hc⟩, ?_⟩⟩
        rcases hcase with ⟨rfl, -⟩ | ⟨-, hrest⟩
        · refine ⟨hs, held, ?_, hv.version, hv.supersedesId⟩
          exact held_stays _ n _ hq (held_next hp.1 hx)
        · exact hrest

end Held

/-- Of the statuses others only ever set SUPERSEDED. -/
theorem intervention_row (sv : Services) (luck : Nat → Luck) (a : Intervention) {w : World}
    {id : DocumentId} {row : Document} (hrow : w.doc id = some row) :
    ∃ row', (a.apply sv luck w).doc id = some row' ∧
      (row'.status = row.status ∨ row'.status = .superseded) := by
  cases a with
  | supersede old new =>
    have hends : Ends (Acts sv) (DriveSyncService.supersede (w.doc old) (w.doc new)) w
        (run (effect sv) luck (DriveSyncService.supersede (w.doc old) (w.doc new)) w).1
        (run (effect sv) luck (DriveSyncService.supersede (w.doc old) (w.doc new)) w).2 :=
      ends_run (fun n _ _ => ⟨luck n, rfl⟩) _ _
    show ∃ row', (run _ _ _ w).2.doc id = some row' ∧ _
    cases hold : w.doc old with
    | none =>
      rw [hold] at hends
      obtain ⟨-, he⟩ := ends_ret.mp hends
      rw [he]
      exact ⟨row, hrow, .inl rfl⟩
    | some o =>
      by_cases hp : o.purgedAt = none
      · rw [hold] at hends
        have hself : w.doc o.id = some o := by rw [Documents.get_id hold]; exact hold
        have hdoc := supersede_doc hself hp hends id
        rw [hrow, Option.map_some] at hdoc
        refine ⟨_, hdoc, ?_⟩
        by_cases ho : id = o.id
        · right
          simp only [ho, if_true]
          split
          · exact Document.retired_status row w.now
          · exact Document.retired_status row w.now
        · left
          simp only [ho, if_false]
          split <;> rfl
      · rw [DriveSyncService.supersede, if_pos hp]
        exact ⟨row, hrow, .inl rfl⟩
  | softDelete k =>
    by_cases hk : id = k
    · subst hk
      exact ⟨_, softDelete_doc hrow, .inl (Document.hidden_status row w.now)⟩
    · exact ⟨row, (softDelete_doc_other hk).trans hrow, .inl rfl⟩
  | restore k =>
    by_cases hk : id = k
    · subst hk
      exact ⟨_, restore_doc hrow, .inl (Document.shown_status row)⟩
    · exact ⟨row, (restore_doc_other hk).trans hrow, .inl rfl⟩
  | setClassification k tier =>
    by_cases hk : id = k
    · subst hk
      exact ⟨_, setClassification_doc hrow, .inl rfl⟩
    · exact ⟨row, (setClassification_doc_other hk).trans hrow, .inl rfl⟩

/-- What another does to the row survives the stage unless a write-back comes after it,
and then if the status was left alone and the copy has the columns of versions. -/
theorem survives_iff (c : Interleaving) {before : Document}
    (hb : c.begun.2.doc c.id = some before) :
    ∃ after final, c.overtaken.doc c.id = some after ∧ c.ended.doc c.id = some final ∧
      (Survives before after final ↔
        (c.WritesBack → after.status = before.status ∧ c.CopyAgrees before after)) := by
  obtain ⟨after, ha, hstatus⟩ := intervention_row c.sv c.otherLuck c.other hb
  have hrest : Conducts c.sv c.id ((conduct c.sv c.id).along .fresh c.firstTrace) c.begun.1 :=
    (processJob_conducts c.stage c.id).after c.luck
      (fun _ k op w => show Possible c.sv op _ from ⟨w, _, k, rfl⟩) c.first c.start
  obtain ⟨final, hf, hdel, htier, hcase⟩ := row_after hrest c.laterLuck c.later ha
  refine ⟨after, final, ha, hf, ?_⟩
  rcases hcase with ⟨rfl, hno⟩ | ⟨hw, hs, held, hheld, hver, hsup⟩
  · exact ⟨fun _ hw => absurd hw hno, fun _ =>
      ⟨fun _ => rfl, fun _ => rfl, fun _ => rfl, fun _ => rfl, fun _ => rfl⟩⟩
  · have hcopy : heldCopy c.id (c.firstTrace ++ c.laterTrace) = some held := by
      rw [heldCopy, List.foldl_append, ← hheld, along_held, along_held]
      rfl
    constructor
    · intro hsurv _
      refine ⟨?_, fun held' hh => ?_⟩
      · by_contra hne
        exact hs ((hsurv.status hne).trans (hstatus.resolve_left hne))
      · obtain rfl := Option.some.inj (hcopy.symm.trans hh)
        exact ⟨fun hne => hver.symm.trans (hsurv.version hne),
          fun hne => hsup.symm.trans (hsurv.supersedesId hne)⟩
    · intro hcond
      obtain ⟨hst, hagrees⟩ := hcond hw
      obtain ⟨hv, hp⟩ := hagrees held hcopy
      exact ⟨fun hne => absurd hst hne, fun hne => hver.trans (hv hne),
        fun hne => hsup.trans (hp hne), fun _ => hdel, fun _ => htier⟩

/-- A file whose older version waits for its vectors while the newer one is LIVE. -/
def olderVersion : Document :=
  { UploadService.received 0 "memo.pdf" [37] plainRequest "application/pdf" with
    status := .chunked, checksum := some "e3b0", quarantinePath := none }

def newerVersion : Document :=
  { UploadService.received 1 "memo.pdf" [37, 80] plainRequest "application/pdf" with
    status := .live, checksum := some "9f86", quarantinePath := none }

def onlyPassage : Chunk where
  chunkId := 0
  documentId := 0
  passage := { index := 0, text := "page", pageNumber := some 1, sectionHeading := none,
               isTable := false, scale := "section" }
  charCount := 4
  documentTitle := none
  embedding := none

def editedWorld : World where
  now := 0
  documents := ⟨[olderVersion, newerVersion], by decide, by decide⟩
  chunks := [onlyPassage]
  jobs := []
  objects _ _ := none
  extracted _ := none
  normalized _ := none
  audit := []
  nextId := 1

/-- The embedding of the older version, overtaken by its retirement. -/
def overtakenEmbedding : Interleaving where
  sv := plainServices
  stage := .embed
  id := 0
  start := editedWorld
  first := 1
  luck _ := .fine
  other := .supersede 0 1
  otherLuck _ := .fine
  later := 7
  laterLuck _ := .fine

/-- A tier set while the handler holds its copy. -/
def overtakenByTier : Interleaving :=
  { overtakenEmbedding with other := .setClassification 0 .restricted }

theorem tier_survives : ∃ after final, overtakenByTier.overtaken.doc 0 = some after ∧
    overtakenByTier.ended.doc 0 = some final ∧ Survives olderVersion after final := by
  obtain ⟨after, final, ha, hf, hiff⟩ := @survives_iff overtakenByTier olderVersion
    (by decide +kernel)
  have hafter : overtakenByTier.overtaken.doc 0 =
      some { olderVersion with classification := some .restricted } := by decide +kernel
  obtain rfl := Option.some.inj (ha.symm.trans hafter)
  exact ⟨_, final, ha, hf, hiff.mpr fun _ => ⟨rfl, fun _ _ => ⟨fun hne => absurd rfl hne,
    fun hne => absurd rfl hne⟩⟩⟩

/-- The write-back puts LIVE over SUPERSEDED. -/
theorem retired_version_comes_back_live : ¬ ∀ (c : Interleaving) (before after final : Document),
    c.begun.2.doc c.id = some before → c.overtaken.doc c.id = some after →
    c.ended.doc c.id = some final → Survives before after final := by
  intro h
  have hafter : (overtakenEmbedding.overtaken.doc 0).map Document.status = some .superseded := by
    decide +kernel
  have hfinal : (overtakenEmbedding.ended.doc 0).map Document.status = some .live := by
    decide +kernel
  obtain ⟨after, ha, hs⟩ := Option.map_eq_some_iff.mp hafter
  obtain ⟨final, hf, hl⟩ := Option.map_eq_some_iff.mp hfinal
  have hsurv := h overtakenEmbedding olderVersion after final (by decide +kernel) ha hf
  have hst := hsurv.status (by rw [hs]; decide)
  rw [hs, hl] at hst
  cases hst

end KnowledgeBase
