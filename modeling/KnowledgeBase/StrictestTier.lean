import KnowledgeBase.StageHandlers
import KnowledgeBase.Transition

/-! Several uploads of one file, scanned at the same time: each is a program of its own, and
their operations come in any order. -/

namespace KnowledgeBase

open Program ScanJobHandler

structure Upload where
  id : DocumentId
  filename : String
  request : UploadRequest

namespace Upload

def tier (u : Upload) : Classification := u.request.classification

/-- The upload is received, and its document scanned. -/
def program (sv : Services) (data : Bytes) (mimeType : String) (u : Upload) : Stage JobOutcome := do
  let _ ← UploadService.receive u.id u.filename data u.request mimeType
  ScanWorker.processJob sv u.id

end Upload

/-- What every upload has still to do. -/
structure RaceState where
  world : World
  rest : List (Stage JobOutcome)

namespace RaceState

def start (sv : Services) (data : Bytes) (mimeType : String) (w : World)
    (uploads : List Upload) : RaceState :=
  { world := w, rest := uploads.map (Upload.program sv data mimeType) }

/-- The next operation of one of the programs. -/
def step (sv : Services) (s : RaceState) (a : Nat × Luck) : Option RaceState :=
  match s.rest[a.1]? with
  | none => none
  | some p =>
    (Program.step (effect sv a.2) p s.world).map fun q =>
      { world := q.2, rest := s.rest.set a.1 q.1 }

/-- The storage does as it is told; an audit write may be lost. -/
def Healthy (s : RaceState) (a : Nat × Luck) : Prop :=
  a.2 = .fine ∨ ∃ d event again next, s.rest[a.1]? = some (.call (.audit d event again) next)

def Finished (s : RaceState) : Prop := ∀ p ∈ s.rest, p.ended = true

instance (s : RaceState) : Decidable s.Finished :=
  inferInstanceAs (Decidable (∀ p ∈ s.rest, p.ended = true))

end RaceState

/-- How far an upload has come. -/
inductive Part where
  | new
  | stored
  | received
  | copied
  | drops (winner : DocumentId)
  | ready
  | promotes
  | moved
  | lost
  | behind
  | yields (winner : DocumentId)
  | dropped
  | won

/-- What is the same for all uploads of the race. -/
structure Content where
  data : Bytes
  mimeType : String
  sha256 : Sha256

namespace Content

def key (k : Content) (u : Upload) : ObjectKey := buildQuarantineKey u.id k.mimeType

/-- The row of an upload that has not been decided on. -/
structure Waiting (k : Content) (u : Upload) (r : Document) : Prop where
  id : r.id = u.id
  status : r.status = .quarantined
  checksum : r.checksum = none
  classification : r.classification = some u.tier
  path : r.quarantinePath = some (k.key u)
  mimeType : r.mimeType = k.mimeType

/-- An upload is promoted, unless the lookup by hash or the index says that another has been;
and then it raises that one's tier to its own before it is done. -/
def duty (k : Content) (u : Upload) : Discipline Op Op.Resp Exn Part where
  allowed x op :=
    match x, op with
    | .new, .putObject b key data => b = .quarantine ∧ key = k.key u ∧ data = k.data
    | .stored, .create doc => k.Waiting u doc
    | .received, .enqueue _ _ | .received, .audit _ _ _ => True
    | .received, .getById d => d = u.id
    | .copied, .getObject b key => b = .quarantine ∧ key = k.key u
    | .copied, .getByChecksum sha256 => sha256 = k.sha256
    | .drops winner, .setClassification d tier => d = winner ∧ tier = .restricted
    | .ready, .audit _ _ _ => True
    | .ready, .updateDocument doc => doc.id = u.id ∧ doc.status = .duplicate
    | .promotes, .objectExists _ _ => True
    | .promotes, .copyObject b key b' _ => b = .quarantine ∧ key = k.key u ∧ b' = .raw
    | .promotes, .deleteObject b key => b = .quarantine ∧ key = k.key u
    | .moved, .updateDocument doc =>
      doc.id = u.id ∧ doc.status = .validated ∧ doc.checksum = some k.sha256
    | .lost, .updateDocument doc => doc.id = u.id ∧ doc.status = .duplicate
    | .behind, .getByChecksum sha256 => sha256 = k.sha256
    | .yields winner, .setClassification d tier => d = winner ∧ tier = .restricted
    | .dropped, .audit _ _ _ => True
    | .dropped, .deleteObject b key => b = .quarantine ∧ key = k.key u
    | .won, .audit _ _ _ | .won, .enqueue _ _ => True
    | _, _ => False
  expected x op r :=
    match x, op, r with
    | .received, .getById _, r => ∃ row, r = .ok (some row) ∧ k.Waiting u row
    | .copied, .getObject _ _, r => r = .ok k.data
    | .copied, .getByChecksum _, r => ∃ found, r = .ok found ∧ ∀ e, found = some e → e.id ≠ u.id
    | .behind, .getByChecksum _, r => ∃ e, r = .ok (some e) ∧ e.id ≠ u.id
    | .moved, .updateDocument _, r => r = .ok () ∨ r = .error .integrityError
    | _, _, r => ∃ a, r = .ok a
  next x op r :=
    match x, op, r with
    | .new, .putObject _ _ _, _ => .stored
    | .stored, .create _, _ => .received
    | .received, .getById _, _ => .copied
    | .copied, .getByChecksum _, .ok none => .promotes
    | .copied, .getByChecksum _, .ok (some e) =>
      if isStricter (some u.tier) e.classification then .drops e.id else .ready
    | .drops _, .setClassification _ _, _ => .ready
    | .ready, .updateDocument _, _ => .dropped
    | .promotes, .deleteObject _ _, _ => .moved
    | .moved, .updateDocument _, .ok _ => .won
    | .moved, .updateDocument _, .error _ => .lost
    | .lost, .updateDocument _, _ => .behind
    | .behind, .getByChecksum _, .ok (some e) =>
      if isStricter (some u.tier) e.classification then .yields e.id else .dropped
    | .yields _, .setClassification _ _, _ => .dropped
    | x, _, _ => x

/-- The duty is done. -/
def Decided (x : Part) : Prop := x = .won ∨ x = .dropped

def Dutiful {α : Type} (k : Content) (u : Upload) (x : Part) (p : Stage α) : Prop :=
  Follows (k.duty u) (fun y o => Decided y ∧ ∃ a, o = .ok a) x p

section Programs

variable {α β : Type} {k : Content} {u : Upload} {x : Part}

theorem dutiful_send_bind {op : Op} {next : op.Resp → Stage β} (hop : (k.duty u).allowed x op)
    (h : ∀ r, (k.duty u).expected x op r →
      ∃ a, r = .ok a ∧ k.Dutiful u ((k.duty u).next x op r) (next a)) :
    k.Dutiful u x (send op >>= next) := by
  refine ⟨hop, fun r hr => ?_⟩
  obtain ⟨a, rfl, ha⟩ := h r hr
  exact ha

/-- An audit write that does not concern the duty. -/
theorem dutiful_audit_bind {d : DocumentId} {event : AuditEventType} {again : Bool}
    {next : Unit → Stage β} (hx : x = .received ∨ x = .ready ∨ x = .dropped ∨ x = .won)
    (h : k.Dutiful u x (next ())) : k.Dutiful u x (send (.audit d event again) >>= next) := by
  rcases hx with rfl | rfl | rfl | rfl
  all_goals
    refine dutiful_send_bind trivial fun r hr => ?_
    obtain ⟨a, rfl⟩ := hr
    exact ⟨a, rfl, h⟩

theorem restricted_of_isStricter {tier : Classification} {c : Option Classification}
    (h : isStricter (some tier) c = true) : tier = .restricted := by
  cases tier with
  | restricted => rfl
  | «public» => simp [isStricter, tierRank] at h

/-- The tier of the one that stays is raised where it has to be. -/
theorem escalate_dutiful {owing : DocumentId → Part} {free : Part} {e : Document}
    (h : owing = .drops ∧ free = .ready ∨ owing = .yields ∧ free = .dropped) :
    Follows (k.duty u) (fun y o => y = free ∧ ∃ a, o = .ok a)
      (if isStricter (some u.tier) e.classification then owing e.id else free)
      (escalateTierIfStricter e (some u.tier)) := by
  unfold escalateTierIfStricter
  by_cases hs : isStricter (some u.tier) e.classification = true
  · have htier := restricted_of_isStricter hs
    simp only [if_pos hs]
    rcases h with ⟨rfl, rfl⟩ | ⟨rfl, rfl⟩
    all_goals
      refine ⟨⟨rfl, htier⟩, fun r hr => ?_⟩
      obtain ⟨a, rfl⟩ := hr
      refine ⟨trivial, fun r hr => ?_⟩
      obtain ⟨a, rfl⟩ := hr
      exact ⟨rfl, _, rfl⟩
  · simp only [if_neg hs]
    exact ⟨rfl, _, rfl⟩

theorem escalate_dutiful_bind {owing : DocumentId → Part} {free : Part} {e : Document}
    {next : Bool × Document → Stage β}
    (h : owing = .drops ∧ free = .ready ∨ owing = .yields ∧ free = .dropped)
    (hk : ∀ a, k.Dutiful u free (next a)) :
    k.Dutiful u (if isStricter (some u.tier) e.classification then owing e.id else free)
      (escalateTierIfStricter e (some u.tier) >>= next) := by
  refine follows_bind ((escalate_dutiful h).mono fun y o ho => ?_)
  obtain ⟨rfl, a, rfl⟩ := ho
  exact hk a

theorem duplicate_dutiful {doc existing : Document} (hid : doc.id = u.id)
    (hc : doc.classification = some u.tier) :
    k.Dutiful u
      (if isStricter (some u.tier) existing.classification then .drops existing.id else .ready)
      (duplicate doc (k.key u) k.sha256 existing) := by
  unfold duplicate
  rw [hc]
  refine escalate_dutiful_bind (.inl ⟨rfl, rfl⟩) fun a => ?_
  refine dutiful_send_bind ⟨hid, rfl⟩ fun r hr => ?_
  obtain ⟨_, rfl⟩ := hr
  refine ⟨_, rfl, dutiful_send_bind ⟨rfl, rfl⟩ fun r hr => ?_⟩
  obtain ⟨_, rfl⟩ := hr
  refine ⟨_, rfl, dutiful_audit_bind (.inr (.inr (.inl rfl))) ?_⟩
  exact ⟨.inr rfl, _, rfl⟩

theorem handOver_dutiful (doc : Document) (key : ObjectKey) (v : ValidationResult) :
    k.Dutiful u .won (handOver doc key v) := by
  refine dutiful_audit_bind (.inr (.inr (.inr rfl))) ?_
  refine dutiful_audit_bind (.inr (.inr (.inr rfl))) ?_
  refine dutiful_send_bind trivial fun r hr => ?_
  obtain ⟨_, rfl⟩ := hr
  exact ⟨_, rfl, .inl rfl, _, rfl⟩

theorem lostRace_dutiful {doc : Document} {key : ObjectKey} (hid : doc.id = u.id)
    (hc : doc.classification = some u.tier) :
    k.Dutiful u .lost (lostRace doc key k.sha256) := by
  refine dutiful_send_bind ⟨hid, rfl⟩ fun r hr => ?_
  obtain ⟨_, rfl⟩ := hr
  refine ⟨_, rfl, dutiful_send_bind rfl fun r hr => ?_⟩
  obtain ⟨e, rfl, hne⟩ := hr
  refine ⟨_, rfl, ?_⟩
  have hother : ¬ e.id = doc.id := fun he => hne (he.trans hid)
  have hdone : ∀ escalated : Bool, k.Dutiful u .dropped (do
      send (.audit doc.id .documentRejected false)
      return ({ documentId := ((some e).map Document.id).getD doc.id, filename := doc.filename,
                status := .duplicate, quarantineKey := key, checksum := some k.sha256,
                rejectionReason := none, wasDuplicate := true,
                canonicalTierEscalated := escalated,
                message := "Duplicate document detected (concurrent upload of identical content)."
              } : UploadResponse)) := fun escalated =>
    dutiful_audit_bind (.inr (.inr (.inl rfl))) ⟨.inr rfl, _, rfl⟩
  refine follows_bind ?_
  unfold escalateWinner
  simp only [if_neg hother, hc]
  refine follows_bind ((escalate_dutiful (.inr ⟨rfl, rfl⟩)).mono fun y o ho => ?_)
  obtain ⟨rfl, a, rfl⟩ := ho
  exact hdone a.1

theorem moveToRaw_dutiful (rawKey : ObjectKey) :
    Follows (k.duty u) (fun y o => y = .moved ∧ ∃ a, o = .ok a) .promotes
      (moveToRaw (k.key u) rawKey) := by
  refine ⟨trivial, fun r hr => ?_⟩
  obtain ⟨there, rfl⟩ := hr
  have hdelete : Follows (k.duty u) (fun y o => y = .moved ∧ ∃ a, o = .ok a) .promotes
      (do let _ ← send (.deleteObject .quarantine (k.key u))) := by
    refine ⟨⟨rfl, rfl⟩, fun r hr => ?_⟩
    obtain ⟨_, rfl⟩ := hr
    exact ⟨rfl, _, rfl⟩
  cases there with
  | true => exact hdelete
  | false =>
    refine ⟨⟨rfl, rfl, rfl⟩, fun r hr => ?_⟩
    obtain ⟨_, rfl⟩ := hr
    exact hdelete

theorem promote_dutiful {doc : Document} {v : ValidationResult} (hid : doc.id = u.id)
    (hc : doc.classification = some u.tier) (hv : v.sha256 = k.sha256)
    (hsum : doc.checksum = some k.sha256) :
    k.Dutiful u .promotes (promote doc (k.key u) v) := by
  unfold promote
  refine follows_bind (follows_attempt ((moveToRaw_dutiful _).mono fun y o ho => ?_))
  obtain ⟨rfl, a, rfl⟩ := ho
  refine ⟨⟨hid, rfl, hsum⟩, fun r hr => ?_⟩
  rcases hr with rfl | rfl
  · exact handOver_dutiful _ _ _
  · rw [hv]
    exact lostRace_dutiful hid hc

theorem process_dutiful {sv : Services}
    (hv : (sv.validateDocument k.data k.mimeType).isValid = true)
    (hsha : (sv.validateDocument k.data k.mimeType).sha256 = k.sha256) :
    k.Dutiful u .received (process sv u.id none) := by
  refine dutiful_send_bind rfl fun r hr => ?_
  obtain ⟨doc, rfl, hw⟩ := hr
  refine ⟨_, rfl, ?_⟩
  have hkey : quarantineKeyFor doc = k.key u := by
    rw [quarantineKeyFor, hw.path]
    rfl
  have hopen : ¬ (doc.status ∈ promotedStatuses ∨ doc.status ∈ finalizedStatuses) := by
    rw [hw.status]
    decide
  dsimp only
  rw [if_neg hopen, hkey]
  refine ⟨⟨rfl, rfl⟩, fun r hr => ?_⟩
  obtain rfl : r = .ok k.data := hr
  show k.Dutiful u .copied
    (if (sv.validateDocument k.data doc.mimeType).isValid then
      dedupAndPromote { doc with checksum := some (sv.validateDocument k.data doc.mimeType).sha256 }
        (k.key u) (sv.validateDocument k.data doc.mimeType) none
    else reject doc (sv.validateDocument k.data doc.mimeType))
  rw [hw.mimeType, if_pos hv]
  unfold dedupAndPromote
  rw [hsha]
  refine dutiful_send_bind rfl fun r hr => ?_
  obtain ⟨found, rfl, hne⟩ := hr
  refine ⟨_, rfl, ?_⟩
  cases found with
  | none =>
    exact promote_dutiful hw.id hw.classification hsha rfl
  | some e =>
    have hother : e.id ≠ doc.id := fun he => hne e rfl (he.trans hw.id)
    dsimp only
    rw [if_pos hother]
    exact duplicate_dutiful hw.id hw.classification

theorem program_dutiful {sv : Services}
    (hv : (sv.validateDocument k.data k.mimeType).isValid = true)
    (hsha : (sv.validateDocument k.data k.mimeType).sha256 = k.sha256) :
    k.Dutiful u .new (u.program sv k.data k.mimeType) := by
  have hscan : k.Dutiful u .received (ScanWorker.processJob sv u.id) := by
    refine follows_bind ((process_dutiful hv hsha).mono fun y o ho => ?_)
    obtain ⟨hd, a, rfl⟩ := ho
    exact ⟨hd, _, rfl⟩
  refine ⟨⟨rfl, rfl, rfl⟩, fun r hr => ?_⟩
  obtain ⟨_, rfl⟩ := hr
  refine ⟨⟨rfl, rfl, rfl, rfl, rfl, rfl⟩, fun r hr => ?_⟩
  obtain ⟨_, rfl⟩ := hr
  refine ⟨trivial, fun r hr => ?_⟩
  obtain ⟨_, rfl⟩ := hr
  refine ⟨trivial, fun r hr => ?_⟩
  obtain ⟨_, rfl⟩ := hr
  exact hscan

end Programs

/-- The row of an upload that has come this far. -/
def Row (k : Content) (u : Upload) : Part → Option Document → Prop
  | .new, o | .stored, o => o = none
  | .behind, o | .yields _, o | .dropped, o => ∃ r, o = some r ∧ r.status = .duplicate
  | .won, o => ∃ r, o = some r ∧ r.status = .validated ∧ r.checksum = some k.sha256 ∧
      (r.classification = some u.tier ∨ r.classification = some .restricted)
  | _, o => ∃ r, o = some r ∧ k.Waiting u r

end Content

namespace Part

/-- The file is still in quarantine. -/
def inQuarantine : Part → Bool
  | stored | received | copied | promotes => true
  | _ => false

/-- Another upload has been promoted, and this one knows it. -/
def beaten : Part → Bool
  | drops _ | ready | lost | behind | yields _ | dropped => true
  | _ => false

def Owes (x : Part) (winner : DocumentId) : Prop :=
  match x with
  | drops d | yields d => d = winner
  | _ => True

/-- The tier of the one that was promoted has been seen to. -/
def paid : Part → Bool
  | ready | dropped => true
  | _ => false

end Part

/-- What holds of the documents and the files while the uploads have come as far as `part`
says, each under the id of its document. -/
structure Content.Stands (k : Content) (uploads : List Upload) (part : DocumentId → Part)
    (w : World) : Prop where
  row : ∀ u ∈ uploads, k.Row u (part u.id) (w.doc u.id)
  file : ∀ u ∈ uploads, (part u.id).inQuarantine = true →
    w.objects .quarantine (k.key u) = some k.data
  active : ∀ id r, w.doc id = some r → r.active = true → r.checksum = some k.sha256 →
    ∃ u ∈ uploads, u.id = id ∧ part id = .won
  beaten : ∀ u ∈ uploads, (part u.id).beaten = true →
    ∃ v ∈ uploads, part v.id = .won ∧ (part u.id).Owes v.id ∧
      ((part u.id).paid = true → u.tier = .restricted →
        ∀ r, w.doc v.id = some r → r.classification = some .restricted)

namespace Content

variable {k : Content} {uploads : List Upload} {part : DocumentId → Part} {u : Upload}
  {w w' : World} {x : Part}

/-- The tier of a row is raised by a write of its own. -/
def raised (r : Document) : Document := { r with classification := some .restricted }

theorem row_raised {v : Upload} (h : k.Row v .won (w.doc v.id))
    (hw : w'.doc v.id = (w.doc v.id).map raised) : k.Row v .won (w'.doc v.id) := by
  obtain ⟨r, hr, hs, hsum, -⟩ := h
  rw [hw, hr]
  exact ⟨_, rfl, hs, hsum, .inr rfl⟩

/-- An upload comes as far as `x`, and the others stay where they are. -/
theorem Stands.moved (h : k.Stands uploads part w) (hu : u ∈ uploads)
    (hothers : ∀ v ∈ uploads, v.id ≠ u.id → w'.doc v.id = w.doc v.id ∨
      part v.id = .won ∧ w'.doc v.id = (w.doc v.id).map raised)
    (hfiles : ∀ v ∈ uploads, v.id ≠ u.id →
      w'.objects .quarantine (k.key v) = w.objects .quarantine (k.key v))
    (hids : ∀ v ∈ uploads, v.id = u.id → v = u)
    (hactive : ∀ id r, w'.doc id = some r → r.active = true → r.checksum = some k.sha256 →
      id = u.id ∧ x = .won ∨
        id ≠ u.id ∧ ∃ q, w.doc id = some q ∧ q.active = true ∧ q.checksum = some k.sha256)
    (hrow : k.Row u x (w'.doc u.id))
    (hfile : x.inQuarantine = true → w'.objects .quarantine (k.key u) = some k.data)
    (hwon : part u.id = .won → x = .won ∧ w'.doc u.id = w.doc u.id)
    (hbeaten : x.beaten = true → ∃ v ∈ uploads, v.id ≠ u.id ∧ part v.id = .won ∧ x.Owes v.id ∧
      (x.paid = true → u.tier = .restricted →
        ∀ r, w'.doc v.id = some r → r.classification = some .restricted)) :
    k.Stands uploads (Function.update part u.id x) w' := by
  have hother : ∀ v ∈ uploads, v.id ≠ u.id → Function.update part u.id x v.id = part v.id :=
    fun v _ hne => Function.update_of_ne hne x part
  have hself : Function.update part u.id x u.id = x := Function.update_self u.id x part
  -- the tier of a document that was promoted is never lowered
  have htier : ∀ v ∈ uploads, part v.id = .won →
      (∀ r, w.doc v.id = some r → r.classification = some .restricted) →
      ∀ r, w'.doc v.id = some r → r.classification = some .restricted := by
    intro v hv hpv hold r hr
    by_cases hne : v.id = u.id
    · obtain rfl := hids v hv hne
      rw [(hwon hpv).2] at hr
      exact hold r hr
    · rcases hothers v hv hne with hsame | ⟨-, hraised⟩
      · exact hold r (hsame ▸ hr)
      · rw [hraised] at hr
        obtain ⟨q, -, rfl⟩ := Option.map_eq_some_iff.mp hr
        rfl
  constructor
  case row =>
    intro v hv
    by_cases hne : v.id = u.id
    · obtain rfl := hids v hv hne
      rw [hself]
      exact hrow
    · rw [hother v hv hne]
      rcases hothers v hv hne with hsame | ⟨hpv, hraised⟩
      · rw [hsame]
        exact h.row v hv
      · rw [hpv]
        exact row_raised (hpv ▸ h.row v hv) hraised
  case file =>
    intro v hv
    by_cases hne : v.id = u.id
    · obtain rfl := hids v hv hne
      rw [hself]
      exact hfile
    · rw [hother v hv hne, hfiles v hv hne]
      exact h.file v hv
  case active =>
    intro id r hr ha hs
    rcases hactive id r hr ha hs with ⟨rfl, hx⟩ | ⟨hne, q, hq, hqa, hqs⟩
    · exact ⟨u, hu, rfl, hself.trans hx⟩
    · obtain ⟨v, hv, hid, hpv⟩ := h.active id q hq hqa hqs
      exact ⟨v, hv, hid, (Function.update_of_ne hne x part).trans hpv⟩
  case beaten =>
    have hstill : ∀ v ∈ uploads, part v.id = .won →
        Function.update part u.id x v.id = .won := by
      intro v hv hpv
      by_cases hne : v.id = u.id
      · obtain rfl := hids v hv hne
        exact hself.trans (hwon hpv).1
      · exact (hother v hv hne).trans hpv
    intro v hv
    by_cases hne : v.id = u.id
    · obtain rfl := hids v hv hne
      rw [hself]
      intro hx
      obtain ⟨c, hc, -, hpc, howes, hpaid⟩ := hbeaten hx
      exact ⟨c, hc, hstill c hc hpc, howes, hpaid⟩
    · rw [hother v hv hne]
      intro hx
      obtain ⟨c, hc, hpc, howes, hpaid⟩ := h.beaten v hv hx
      exact ⟨c, hc, hstill c hc hpc, howes, fun hp ht => htier c hc hpc (hpaid hp ht)⟩

theorem key_ne {v : Upload} (h : v.id ≠ u.id) : k.key v ≠ k.key u := by
  intro he
  unfold key buildQuarantineKey at he
  injection he with hid _
  exact h hid

theorem Stands.won_of_active (h : k.Stands uploads part w) {r : Document}
    (hr : w.doc u.id = some r) (ha : r.active = true) (hs : r.checksum = some k.sha256) :
    part u.id = .won := by
  obtain ⟨v, -, hid, hpv⟩ := h.active u.id r hr ha hs
  exact hpv

/-- An operation that leaves the documents alone. -/
theorem Stands.quiet (h : k.Stands uploads part w) (hu : u ∈ uploads)
    (hids : ∀ v ∈ uploads, v.id = u.id → v = u) (hdocs : w'.documents = w.documents)
    (hfiles : ∀ key, key ≠ k.key u → w'.objects .quarantine key = w.objects .quarantine key)
    (hrow : k.Row u x (w.doc u.id))
    (hfile : x.inQuarantine = true → w'.objects .quarantine (k.key u) = some k.data)
    (hwon : part u.id = .won → x = .won)
    (hbeaten : x.beaten = true → ∃ v ∈ uploads, v.id ≠ u.id ∧ part v.id = .won ∧ x.Owes v.id ∧
      (x.paid = true → u.tier = .restricted →
        ∀ r, w.doc v.id = some r → r.classification = some .restricted)) :
    k.Stands uploads (Function.update part u.id x) w' := by
  have hdoc : ∀ id, w'.doc id = w.doc id := fun id => by rw [World.doc, hdocs, World.doc]
  refine h.moved hu (fun v _ _ => .inl (hdoc v.id)) (fun v _ hne => hfiles _ (key_ne hne)) hids
    ?_ ((hdoc u.id).symm ▸ hrow) hfile (fun hp => ⟨hwon hp, hdoc u.id⟩) ?_
  · intro id r hr ha hs
    rw [hdoc] at hr
    by_cases hid : id = u.id
    · subst hid
      exact .inl ⟨rfl, hwon (h.won_of_active hr ha hs)⟩
    · exact .inr ⟨hid, r, hr, ha, hs⟩
  · simpa only [hdoc] using hbeaten

/-- The operation does not even move the upload on. -/
theorem Stands.still (h : k.Stands uploads part w) (hdocs : w'.documents = w.documents)
    (hobjects : ∀ key, w'.objects .quarantine key = w.objects .quarantine key)
    (hx : part u.id = x) : k.Stands uploads (Function.update part u.id x) w' := by
  rw [← hx, Function.update_eq_self]
  have hdoc : ∀ id, w'.doc id = w.doc id := fun id => by rw [World.doc, hdocs, World.doc]
  constructor
  · simpa only [hdoc] using h.row
  · simpa only [hobjects] using h.file
  · simpa only [hdoc] using h.active
  · simpa only [hdoc] using h.beaten

/-- The row of the upload is written, and either gives up its claim to the hash or keeps it. -/
theorem Stands.written (h : k.Stands uploads part w) (hu : u ∈ uploads)
    (hids : ∀ v ∈ uploads, v.id = u.id → v = u) {doc row : Document} {t : Documents}
    (hid : doc.id = u.id) (hold : w.doc u.id = some row)
    (ht : w.documents.updateDocument doc = some t)
    (hclaim : doc.status = .duplicate ∨ x = .won)
    (hrow : k.Row u x (some (doc.writeBack row))) (hstays : x.inQuarantine = false)
    (hopen : part u.id ≠ .won)
    (hbeaten : x.beaten = true → ∃ v ∈ uploads, v.id ≠ u.id ∧ part v.id = .won ∧ x.Owes v.id ∧
      (x.paid = true → u.tier = .restricted →
        ∀ r, w.doc v.id = some r → r.classification = some .restricted)) :
    k.Stands uploads (Function.update part u.id x) { w with documents := t } := by
  have hself : t.get u.id = some (doc.writeBack row) := by
    have hget : w.documents.get doc.id = some row := hid.symm ▸ hold
    exact hid ▸ Documents.updateDocument_get ht hget
  have hsame : ∀ id, id ≠ u.id → t.get id = w.doc id :=
    fun id hne => Documents.updateDocument_get_other ht (hid.symm ▸ hne)
  refine h.moved hu (fun v _ hne => .inl (hsame v.id hne)) (fun _ _ _ => rfl) hids ?_
    (by rw [World.doc, hself]; exact hrow) (fun hx => ?_) (fun hp => absurd hp hopen) ?_
  · intro id r hr ha hs
    by_cases hne : id = u.id
    · left
      refine ⟨hne, hclaim.resolve_left fun hdup => ?_⟩
      have hr' : t.get id = some r := hr
      rw [hne, hself] at hr'
      obtain rfl := Option.some.inj hr'
      have hst : (doc.writeBack row).status = .duplicate := hdup
      rw [Document.active, hst] at ha
      cases ha
    · exact .inr ⟨hne, r, (hsame id hne).symm.trans hr, ha, hs⟩
  · rw [hstays] at hx
    cases hx
  · intro hx
    obtain ⟨v, hv, hne, hpv, howes, hpaid⟩ := hbeaten hx
    refine ⟨v, hv, hne, hpv, howes, fun hp hr r hrow => ?_⟩
    exact hpaid hp hr r ((hsame v.id hne).symm.trans hrow)

/-- The one that has beaten an upload. -/
theorem Stands.winner (h : k.Stands uploads part w) (hu : u ∈ uploads) (hx : part u.id = x)
    (hb : x.beaten = true) :
    ∃ v ∈ uploads, v.id ≠ u.id ∧ part v.id = .won ∧ x.Owes v.id ∧
      (x.paid = true → u.tier = .restricted →
        ∀ r, w.doc v.id = some r → r.classification = some .restricted) := by
  obtain ⟨v, hv, hpv, hrest⟩ := h.beaten u hu (hx ▸ hb)
  refine ⟨v, hv, fun he => ?_, hpv, hx ▸ hrest⟩
  rw [he, hx] at hpv
  rw [hpv] at hb
  cases hb

/-- An active row of the hash is that of an upload that was promoted. -/
theorem Stands.winner_of_row (h : k.Stands uploads part w) (hx : part u.id ≠ .won)
    {e : Document} (he : w.doc e.id = some e) (ha : e.active = true)
    (hs : e.checksum = some k.sha256) :
    ∃ v ∈ uploads, v.id = e.id ∧ v.id ≠ u.id ∧ part v.id = .won := by
  obtain ⟨v, hv, hid, hpv⟩ := h.active e.id e he ha hs
  have hwon : part v.id = .won := hid.symm ▸ hpv
  exact ⟨v, hv, hid, fun hne => hx (hne ▸ hwon), hwon⟩

theorem not_stricter {r : Document} (h : ¬ isStricter (some u.tier) r.classification = true)
    (hr : u.tier = .restricted) : r.classification = some .restricted := by
  rw [hr] at h
  by_contra hne
  simp [isStricter, tierRank, hne] at h

/-- What the lookup by hash finds while an upload is not promoted, and what comes of it. -/
theorem Stands.compared (h : k.Stands uploads part w) (hx : part u.id ≠ .won) {e : Document}
    (he : w.documents.getByChecksum k.sha256 = some e) {owing : DocumentId → Part} {free : Part}
    (hkind : owing = .drops ∧ free = .ready ∨ owing = .yields ∧ free = .dropped) :
    e.id ≠ u.id ∧
      ∃ v ∈ uploads, v.id ≠ u.id ∧ part v.id = .won ∧
        (if isStricter (some u.tier) e.classification then owing e.id else free).Owes v.id ∧
        ((if isStricter (some u.tier) e.classification then owing e.id else free).paid = true →
          u.tier = .restricted →
          ∀ r, w.doc v.id = some r → r.classification = some .restricted) := by
  obtain ⟨hget, hs, ha⟩ := Documents.getByChecksum_spec he
  obtain ⟨v, hv, hid, hne, hpv⟩ := h.winner_of_row hx hget ha hs
  refine ⟨hid ▸ hne, v, hv, hne, hpv, ?_⟩
  by_cases hstrict : isStricter (some u.tier) e.classification = true
  · rw [if_pos hstrict]
    rcases hkind with ⟨rfl, -⟩ | ⟨rfl, -⟩
    all_goals exact ⟨hid.symm, fun hp => by cases hp⟩
  · rw [if_neg hstrict]
    constructor
    · rcases hkind with ⟨-, rfl⟩ | ⟨-, rfl⟩ <;> trivial
    · intro _ hr r hrow
      rw [hid] at hrow
      obtain rfl := Option.some.inj (hget.symm.trans hrow)
      exact not_stricter hstrict hr

/-- The tier of the one that was promoted is raised. -/
theorem Stands.escalated (h : k.Stands uploads part w) (hu : u ∈ uploads)
    (hids : ∀ v ∈ uploads, v.id = u.id → v = u) (hx : part u.id = x) (hb : x.beaten = true)
    {winner : DocumentId} (howes : ∀ d, x.Owes d → d = winner) {free : Part}
    (hrow : k.Row u free (w.doc u.id)) (hstays : free.inQuarantine = false)
    (hfree : ∀ d, free.Owes d) :
    k.Stands uploads (Function.update part u.id free)
      (w.setClassification winner .restricted) := by
  obtain ⟨v, hv, hne, hpv, hown, -⟩ := h.winner hu hx hb
  obtain rfl := howes v.id hown
  have hrowv := h.row v hv
  rw [hpv] at hrowv
  obtain ⟨r, hr, hs, hsum, -⟩ := hrowv
  obtain ⟨t, ht⟩ := Documents.modify_accepted
    (f := fun q => { q with classification := some .restricted }) hr id rfl
  have hw : w.setClassification v.id .restricted = { w with documents := t } := by
    rw [World.setClassification, ht]
  rw [hw]
  have hself : t.get v.id = some (raised r) := by
    rw [Documents.modify_get_self ht hr, raised, ← Documents.get_id hr]
  have hother : ∀ id, id ≠ v.id → t.get id = w.doc id :=
    fun id hid => Documents.modify_get_other ht hid
  have hopen : part u.id ≠ .won := by
    rw [hx]
    rintro rfl
    cases hb
  refine h.moved hu ?_ (fun _ _ _ => rfl) hids ?_ ?_ (fun hq => ?_)
    (fun hp => absurd hp hopen) ?_
  · intro c _ _
    by_cases hc : c.id = v.id
    · right
      rw [hc]
      exact ⟨hpv, hself.trans (by rw [hr]; rfl)⟩
    · exact .inl (hother c.id hc)
  · intro id q hq ha hqs
    by_cases hid : id = v.id
    · rw [hid] at hq ⊢
      obtain rfl := Option.some.inj (hself.symm.trans hq)
      exact .inr ⟨hne, r, hr, ha, hqs⟩
    · have hold : w.doc id = some q := (hother id hid).symm.trans hq
      refine .inr ⟨fun he => hopen ?_, q, hold, ha, hqs⟩
      exact h.won_of_active (he ▸ hold) ha hqs
  · rw [World.doc, hother u.id hne.symm]
    exact hrow
  · rw [hstays] at hq
    cases hq
  · intro _
    refine ⟨v, hv, hne, hpv, hfree v.id, fun _ _ q hq => ?_⟩
    obtain rfl := Option.some.inj (hself.symm.trans hq)
    rfl

/-- The operation is answered as it should be, and what holds of the uploads still does. -/
def Goes (k : Content) (sv : Services) (uploads : List Upload) (part : DocumentId → Part)
    (u : Upload) (x : Part) (op : Op) (w : World) : Prop :=
  (k.duty u).expected x op (effect sv .fine op w).1 ∧
    k.Stands uploads (Function.update part u.id ((k.duty u).next x op (effect sv .fine op w).1))
      (effect sv .fine op w).2

section Steps

variable {sv : Services} {op : Op}

theorem goes_new (h : k.Stands uploads part w) (hu : u ∈ uploads)
    (hids : ∀ v ∈ uploads, v.id = u.id → v = u) (hx : part u.id = .new)
    (hop : (k.duty u).allowed .new op) : k.Goes sv uploads part u .new op w := by
  cases op
  case putObject b key data =>
    obtain ⟨rfl, rfl, rfl⟩ := hop
    refine ⟨⟨(), rfl⟩, h.quiet hu hids rfl ?_ ?_ ?_ (by simp [hx]) nofun⟩
    · intro key hkey
      simp [effect, called, World.setObject, hkey]
    · have hrow := h.row u hu
      rw [hx] at hrow
      exact hrow
    · intro _
      simp [effect, called, World.setObject]
  all_goals exact hop.elim

theorem goes_stored (h : k.Stands uploads part w) (hu : u ∈ uploads)
    (hids : ∀ v ∈ uploads, v.id = u.id → v = u) (hx : part u.id = .stored)
    (hop : (k.duty u).allowed .stored op) : k.Goes sv uploads part u .stored op w := by
  cases op
  case create doc =>
    have hw : k.Waiting u doc := hop
    have hnone : w.documents.get u.id = none := by
      have hrow := h.row u hu
      rw [hx] at hrow
      exact hrow
    obtain ⟨t, ht⟩ := Documents.insert_accepted (t := w.documents) (d := doc.created)
      (hw.id.symm ▸ hnone) hw.checksum (by rw [Document.created, hw.classification]; simp)
    have hself : t.get u.id = some doc.created := by
      have hid : doc.created.id = u.id := hw.id
      rw [Documents.insert_get ht, hnone, Option.none_or, if_pos hid]
    have hother : ∀ id, id ≠ u.id → t.get id = w.doc id := by
      intro id hne
      have hid : ¬ doc.created.id = id := fun he => hne (he.symm.trans hw.id)
      rw [Documents.insert_get ht, if_neg hid, Option.or_none]
      rfl
    have heffect : effect sv .fine (.create doc) w = (.ok (), { w with documents := t }) := by
      rw [effect, ht]
      rfl
    unfold Goes
    rw [heffect]
    refine ⟨⟨(), rfl⟩, h.moved hu (fun v _ hne => .inl (hother v.id hne)) (fun _ _ _ => rfl) hids
      ?_ ?_ (fun _ => h.file u hu (by rw [hx]; rfl)) (by simp [hx]) (fun h => by cases h)⟩
    · intro id r hr ha hs
      by_cases hid : id = u.id
      · rw [hid] at hr
        obtain rfl := Option.some.inj (hself.symm.trans hr)
        rw [Document.created, hw.checksum] at hs
        cases hs
      · exact .inr ⟨hid, r, (hother id hid).symm.trans hr, ha, hs⟩
    · exact ⟨doc.created, hself, hw.id, hw.status, hw.checksum, hw.classification, hw.path,
        hw.mimeType⟩
  all_goals exact hop.elim

theorem goes_received (h : k.Stands uploads part w) (hu : u ∈ uploads)
    (hids : ∀ v ∈ uploads, v.id = u.id → v = u) (hx : part u.id = .received)
    (hop : (k.duty u).allowed .received op) : k.Goes sv uploads part u .received op w := by
  have hrow := h.row u hu
  rw [hx] at hrow
  cases op
  case enqueue id stage => exact ⟨⟨(), rfl⟩, h.still rfl (fun _ => rfl) hx⟩
  case audit id event again =>
    obtain ⟨a, ha⟩ := auditEvent_eq w id event again
    refine ⟨⟨(), rfl⟩, h.still ?_ ?_ hx⟩
    · simp [effect, ha]
    · simp [effect, ha]
  case getById id =>
    obtain rfl : id = u.id := hop
    obtain ⟨row, hget, hw⟩ := hrow
    refine ⟨⟨row, by rw [effect, hget], hw⟩, h.quiet hu hids rfl (fun _ _ => rfl) ⟨row, hget, hw⟩
      (fun _ => h.file u hu (by rw [hx]; rfl)) (by simp [hx]) (fun h => by cases h)⟩
  all_goals exact hop.elim

theorem goes_copied (h : k.Stands uploads part w) (hu : u ∈ uploads)
    (hids : ∀ v ∈ uploads, v.id = u.id → v = u) (hx : part u.id = .copied)
    (hop : (k.duty u).allowed .copied op) : k.Goes sv uploads part u .copied op w := by
  have hrow := h.row u hu
  rw [hx] at hrow
  have hfile := h.file u hu (by rw [hx]; rfl)
  have hopen : part u.id ≠ .won := by simp [hx]
  cases op
  case getObject b key =>
    obtain ⟨rfl, rfl⟩ := hop
    exact ⟨by rw [effect, hfile]; rfl, h.still rfl (fun _ => rfl) hx⟩
  case getByChecksum sha256 =>
    obtain rfl : sha256 = k.sha256 := hop
    cases hfound : w.documents.getByChecksum k.sha256 with
    | none =>
      have heffect : effect sv .fine (.getByChecksum k.sha256) w = (.ok none, w) := by
        rw [effect, hfound]
      have hnext : (k.duty u).next .copied (.getByChecksum k.sha256) (.ok none) = .promotes := rfl
      unfold Goes
      rw [heffect, hnext]
      refine ⟨⟨none, rfl, fun e he => by cases he⟩, h.quiet hu hids rfl (fun _ _ => rfl) hrow
        (fun _ => hfile) (fun hp => absurd hp hopen) (fun hb => by cases hb)⟩
    | some e =>
      obtain ⟨hne, hbeaten⟩ := h.compared hopen hfound (.inl ⟨rfl, rfl⟩)
      have heffect : effect sv .fine (.getByChecksum k.sha256) w = (.ok (some e), w) := by
        rw [effect, hfound]
      have hnext : (k.duty u).next .copied (.getByChecksum k.sha256) (.ok (some e)) =
        if isStricter (some u.tier) e.classification then .drops e.id else .ready := rfl
      unfold Goes
      rw [heffect, hnext]
      refine ⟨⟨some e, rfl, fun c hc => Option.some.inj hc ▸ hne⟩, ?_⟩
      refine h.quiet hu hids rfl (fun _ _ => rfl) ?_ (fun _ => hfile) (fun hp => absurd hp hopen)
        (fun _ => hbeaten)
      split
      · exact hrow
      · exact hrow
  all_goals exact hop.elim

variable (sv) in
/-- The row of the upload is written as that of a duplicate. -/
theorem goes_duplicate {y : Part} {doc row : Document} (h : k.Stands uploads part w)
    (hu : u ∈ uploads) (hids : ∀ v ∈ uploads, v.id = u.id → v = u) (hx : part u.id = x)
    (hb : x.beaten = true) (hid : doc.id = u.id) (hdup : doc.status = .duplicate)
    (hold : w.doc u.id = some row) (hy : y = .dropped ∨ y = .behind)
    (hpaid : y.paid = true → x.paid = true) :
    ∃ t, effect sv .fine (.updateDocument doc) w = (.ok (), { w with documents := t }) ∧
      k.Stands uploads (Function.update part u.id y) { w with documents := t } := by
  have hget : w.documents.get doc.id = some row := hid.symm ▸ hold
  have hopen : part u.id ≠ .won := by
    rw [hx]
    rintro rfl
    cases hb
  cases ht : w.documents.updateDocument doc with
  | none =>
    have ha := (Documents.updateDocument_eq_none ht hget).1
    rw [Document.active, hdup] at ha
    cases ha
  | some t =>
    refine ⟨t, by rw [effect, ht]; rfl, h.written hu hids hid hold ht (.inl hdup) ?_ ?_ hopen ?_⟩
    · rcases hy with rfl | rfl
      all_goals exact ⟨_, rfl, hdup⟩
    · rcases hy with rfl | rfl <;> rfl
    · intro _
      obtain ⟨v, hv, hne, hpv, -, hrest⟩ := h.winner hu hx hb
      refine ⟨v, hv, hne, hpv, ?_, fun hp => hrest (hpaid hp)⟩
      rcases hy with rfl | rfl <;> trivial

theorem goes_ready (h : k.Stands uploads part w) (hu : u ∈ uploads)
    (hids : ∀ v ∈ uploads, v.id = u.id → v = u) (hx : part u.id = .ready)
    (hop : (k.duty u).allowed .ready op) : k.Goes sv uploads part u .ready op w := by
  have hrow := h.row u hu
  rw [hx] at hrow
  obtain ⟨row, hold, -⟩ := hrow
  cases op
  case audit id event again =>
    obtain ⟨a, ha⟩ := auditEvent_eq w id event again
    refine ⟨⟨(), rfl⟩, h.still ?_ ?_ hx⟩
    · simp [effect, ha]
    · simp [effect, ha]
  case updateDocument doc =>
    obtain ⟨hid, hdup⟩ := hop
    obtain ⟨t, heffect, hstands⟩ := goes_duplicate sv (y := .dropped) h hu hids hx rfl hid
      hdup hold (.inl rfl) id
    unfold Goes
    rw [heffect]
    exact ⟨⟨(), rfl⟩, hstands⟩
  all_goals exact hop.elim

theorem goes_lost (h : k.Stands uploads part w) (hu : u ∈ uploads)
    (hids : ∀ v ∈ uploads, v.id = u.id → v = u) (hx : part u.id = .lost)
    (hop : (k.duty u).allowed .lost op) : k.Goes sv uploads part u .lost op w := by
  have hrow := h.row u hu
  rw [hx] at hrow
  obtain ⟨row, hold, -⟩ := hrow
  cases op
  case updateDocument doc =>
    obtain ⟨hid, hdup⟩ := hop
    obtain ⟨t, heffect, hstands⟩ := goes_duplicate sv (y := .behind) h hu hids hx rfl hid
      hdup hold (.inr rfl) (fun hp => by cases hp)
    unfold Goes
    rw [heffect]
    exact ⟨⟨(), rfl⟩, hstands⟩
  all_goals exact hop.elim

theorem goes_promotes (h : k.Stands uploads part w) (hu : u ∈ uploads)
    (hids : ∀ v ∈ uploads, v.id = u.id → v = u) (hx : part u.id = .promotes)
    (hop : (k.duty u).allowed .promotes op) : k.Goes sv uploads part u .promotes op w := by
  have hrow := h.row u hu
  rw [hx] at hrow
  have hfile := h.file u hu (by rw [hx]; rfl)
  cases op
  case objectExists b key => exact ⟨⟨_, rfl⟩, h.still rfl (fun _ => rfl) hx⟩
  case copyObject b key b' key' =>
    obtain ⟨rfl, rfl, rfl⟩ := hop
    have heffect : effect sv .fine (.copyObject .quarantine (k.key u) .raw key') w =
        (.ok (), w.setObject .raw key' (some k.data)) := by
      rw [effect, hfile]
      rfl
    unfold Goes
    rw [heffect]
    refine ⟨⟨(), rfl⟩, h.still rfl (fun key => ?_) hx⟩
    simp [World.setObject]
  case deleteObject b key =>
    obtain ⟨rfl, rfl⟩ := hop
    refine ⟨⟨_, rfl⟩, h.quiet hu hids rfl (fun key hkey => ?_) hrow (fun hq => by cases hq)
      (fun hp => ?_) (fun hb => by cases hb)⟩
    · simp [effect, World.setObject, hkey]
    · rw [hx] at hp
      cases hp
  all_goals exact hop.elim

theorem goes_moved (h : k.Stands uploads part w) (hu : u ∈ uploads)
    (hids : ∀ v ∈ uploads, v.id = u.id → v = u) (hx : part u.id = .moved)
    (hop : (k.duty u).allowed .moved op) : k.Goes sv uploads part u .moved op w := by
  have hrow := h.row u hu
  rw [hx] at hrow
  have hopen : part u.id ≠ .won := by simp [hx]
  cases op
  case updateDocument doc =>
    obtain ⟨hid, hvalid, hsum⟩ := hop
    obtain ⟨row, hold, hw⟩ := hrow
    have hget : w.documents.get doc.id = some row := hid.symm ▸ hold
    cases ht : w.documents.updateDocument doc with
    | none =>
      have heffect : effect sv .fine (.updateDocument doc) w = (.error .integrityError, w) := by
        rw [effect, ht]
        rfl
      obtain ⟨-, e, he, hne, ha, -, hes⟩ := Documents.updateDocument_eq_none ht hget
      obtain ⟨v, hv, -, hvu, hpv⟩ :=
        h.winner_of_row hopen (Documents.get_of_mem he) ha (hes.trans hsum)
      unfold Goes
      rw [heffect]
      refine ⟨.inr rfl, h.quiet hu hids rfl (fun _ _ => rfl) ⟨row, hold, hw⟩
        (fun hq => by cases hq) (fun hp => absurd hp hopen) (fun _ => ?_)⟩
      exact ⟨v, hv, hvu, hpv, trivial, fun hp => by cases hp⟩
    | some t =>
      have heffect : effect sv .fine (.updateDocument doc) w =
          (.ok (), { w with documents := t }) := by
        rw [effect, ht]
        rfl
      unfold Goes
      rw [heffect]
      refine ⟨.inl rfl, h.written hu hids hid hold ht (.inr rfl) ?_ rfl hopen
        (fun hb => by cases hb)⟩
      exact ⟨_, rfl, hvalid, hsum, .inl hw.classification⟩
  all_goals exact hop.elim

theorem goes_behind (h : k.Stands uploads part w) (hu : u ∈ uploads)
    (hids : ∀ v ∈ uploads, v.id = u.id → v = u) (hx : part u.id = .behind)
    (hop : (k.duty u).allowed .behind op) : k.Goes sv uploads part u .behind op w := by
  have hrow := h.row u hu
  rw [hx] at hrow
  have hopen : part u.id ≠ .won := by simp [hx]
  cases op
  case getByChecksum sha256 =>
    obtain rfl : sha256 = k.sha256 := hop
    -- the index refused this upload for a row that is still there
    obtain ⟨v, hv, -, hpv, -⟩ := h.winner hu hx rfl
    have hrowv := h.row v hv
    rw [hpv] at hrowv
    obtain ⟨e, he, hs, hsum, -⟩ := hrowv
    have hfound : w.documents.getByChecksum k.sha256 = some e :=
      Documents.getByChecksum_eq_some he hsum (by rw [Document.active, hs]; rfl)
    have heffect : effect sv .fine (.getByChecksum k.sha256) w = (.ok (some e), w) := by
      rw [effect, hfound]
    have hnext : (k.duty u).next .behind (.getByChecksum k.sha256) (.ok (some e)) =
      if isStricter (some u.tier) e.classification then .yields e.id else .dropped := rfl
    obtain ⟨hne, hbeaten⟩ := h.compared hopen hfound (.inr ⟨rfl, rfl⟩)
    unfold Goes
    rw [heffect, hnext]
    refine ⟨⟨e, rfl, hne⟩, h.quiet hu hids rfl (fun _ _ => rfl) ?_ ?_
      (fun hp => absurd hp hopen) (fun _ => hbeaten)⟩
    · split
      · exact hrow
      · exact hrow
    · split
      · exact fun hq => by cases hq
      · exact fun hq => by cases hq
  all_goals exact hop.elim

theorem goes_escalates {winner : DocumentId} (h : k.Stands uploads part w) (hu : u ∈ uploads)
    (hids : ∀ v ∈ uploads, v.id = u.id → v = u) (hx : part u.id = x)
    (howing : x = .drops winner ∨ x = .yields winner) (hop : (k.duty u).allowed x op) :
    k.Goes sv uploads part u x op w := by
  have hrow := h.row u hu
  rw [hx] at hrow
  rcases howing with rfl | rfl
  all_goals
    cases op
    case setClassification id tier =>
      obtain ⟨rfl, rfl⟩ := hop
      exact ⟨⟨(), rfl⟩, h.escalated hu hids hx rfl (fun d hd => hd.symm) hrow rfl
        (fun _ => trivial)⟩
    all_goals exact hop.elim

theorem goes_decided (h : k.Stands uploads part w) (hu : u ∈ uploads)
    (hids : ∀ v ∈ uploads, v.id = u.id → v = u) (hx : part u.id = x) (hd : Decided x)
    (hop : (k.duty u).allowed x op) : k.Goes sv uploads part u x op w := by
  have haudit : ∀ id event again,
      k.Stands uploads (Function.update part u.id x) (w.auditEvent id event again) := by
    intro id event again
    obtain ⟨a, ha⟩ := auditEvent_eq w id event again
    rw [ha]
    exact h.still rfl (fun _ => rfl) hx
  rcases hd with rfl | rfl
  · cases op
    case audit id event again => exact ⟨⟨(), rfl⟩, haudit id event again⟩
    case enqueue id stage => exact ⟨⟨(), rfl⟩, h.still rfl (fun _ => rfl) hx⟩
    all_goals exact hop.elim
  · cases op
    case audit id event again => exact ⟨⟨(), rfl⟩, haudit id event again⟩
    case deleteObject b key =>
      obtain ⟨rfl, rfl⟩ := hop
      have hrow := h.row u hu
      rw [hx] at hrow
      refine ⟨⟨_, rfl⟩, h.quiet hu hids rfl (fun key hkey => ?_) hrow (fun hq => by cases hq)
        (fun hp => ?_) (fun _ => h.winner hu hx rfl)⟩
      · simp [effect, World.setObject, hkey]
      · rw [hx] at hp
        cases hp
    all_goals exact hop.elim

theorem goes (h : k.Stands uploads part w) (hu : u ∈ uploads)
    (hids : ∀ v ∈ uploads, v.id = u.id → v = u) (hx : part u.id = x)
    (hop : (k.duty u).allowed x op) : k.Goes sv uploads part u x op w := by
  cases x with
  | new => exact goes_new h hu hids hx hop
  | stored => exact goes_stored h hu hids hx hop
  | received => exact goes_received h hu hids hx hop
  | copied => exact goes_copied h hu hids hx hop
  | drops winner => exact goes_escalates h hu hids hx (.inl rfl) hop
  | ready => exact goes_ready h hu hids hx hop
  | promotes => exact goes_promotes h hu hids hx hop
  | moved => exact goes_moved h hu hids hx hop
  | lost => exact goes_lost h hu hids hx hop
  | behind => exact goes_behind h hu hids hx hop
  | yields winner => exact goes_escalates h hu hids hx (.inr rfl) hop
  | dropped => exact goes_decided h hu hids hx (.inr rfl) hop
  | won => exact goes_decided h hu hids hx (.inl rfl) hop

/-- An audit write that is lost changes nothing at all. -/
theorem goes_unaudited {id : DocumentId} {event : AuditEventType} {again : Bool}
    (h : k.Stands uploads part w) (hx : part u.id = x)
    (hop : (k.duty u).allowed x (.audit id event again)) :
    (k.duty u).expected x (.audit id event again) (.ok ()) ∧
      k.Stands uploads
        (Function.update part u.id ((k.duty u).next x (.audit id event again) (.ok ()))) w := by
  have hstill : k.Stands uploads (Function.update part u.id x) w :=
    h.still rfl (fun _ => rfl) hx
  cases x
  case received | ready | dropped | won => exact ⟨⟨(), rfl⟩, hstill⟩
  all_goals exact hop.elim

end Steps

theorem stands_of_fresh (hfresh : ∀ u ∈ uploads, w.doc u.id = none)
    (hnew : ∀ id r, w.doc id = some r → r.active = true → r.checksum ≠ some k.sha256) :
    k.Stands uploads (fun _ => .new) w where
  row := hfresh
  file := fun _ _ hq => by cases hq
  active := fun id r hr ha hs => absurd hs (hnew id r hr ha)
  beaten := fun _ _ hb => by cases hb

/-- Two uploads are not both promoted. -/
theorem Stands.won_unique (h : k.Stands uploads part w) {v : Upload} (hu : u ∈ uploads)
    (hv : v ∈ uploads) (hpu : part u.id = .won) (hpv : part v.id = .won) : u.id = v.id := by
  have hrowu := h.row u hu
  have hrowv := h.row v hv
  rw [hpu] at hrowu
  rw [hpv] at hrowv
  obtain ⟨r, hr, hrs, hrsum, -⟩ := hrowu
  obtain ⟨q, hq, hqs, hqsum, -⟩ := hrowv
  have hid := w.documents.unique r (Documents.mem_of_get hr) q (Documents.mem_of_get hq)
    (by rw [Document.active, hrs]; rfl) (by rw [Document.active, hqs]; rfl)
    (by rw [hrsum]; nofun) (hrsum.trans hqsum.symm)
  rw [Documents.get_id hr, Documents.get_id hq] at hid
  exact hid

end Content

namespace RaceState

/-- Each upload is somewhere on its way, and its program does the rest. -/
def Fair (k : Content) (uploads : List Upload) (s : RaceState) : Prop :=
  ∃ part, k.Stands uploads part s.world ∧ s.rest.length = uploads.length ∧
    ∀ (i : Nat) (u : Upload) (p : Stage JobOutcome),
      uploads[i]? = some u → s.rest[i]? = some p → k.Dutiful u (part u.id) p

variable {sv : Services} {k : Content} {uploads : List Upload} {s t : RaceState}

theorem fair_start {w : World} {data : Bytes} {mimeType : String}
    (hv : (sv.validateDocument data mimeType).isValid = true)
    (hfresh : ∀ u ∈ uploads, w.doc u.id = none)
    (hnew : ∀ id r, w.doc id = some r → r.active = true →
      r.checksum ≠ some (sv.validateDocument data mimeType).sha256) :
    Fair ⟨data, mimeType, (sv.validateDocument data mimeType).sha256⟩ uploads
      (start sv data mimeType w uploads) := by
  refine ⟨fun _ => .new, Content.stands_of_fresh hfresh hnew, by simp [start], ?_⟩
  intro i u p hu hp
  rw [start, List.getElem?_map, hu] at hp
  obtain rfl := Option.some.inj hp
  exact Content.program_dutiful (k := ⟨data, mimeType, (sv.validateDocument data mimeType).sha256⟩)
    hv rfl

theorem index_inj (hids : (uploads.map Upload.id).Nodup) {i j : Nat} {u v : Upload}
    (hu : uploads[i]? = some u) (hv : uploads[j]? = some v) (h : v.id = u.id) : j = i := by
  have hi : (uploads.map Upload.id)[i]? = some u.id := by rw [List.getElem?_map, hu]; rfl
  have hj : (uploads.map Upload.id)[j]? = some u.id := by rw [List.getElem?_map, hv, ← h]; rfl
  obtain ⟨hlt, -⟩ := List.getElem?_eq_some_iff.mp hj
  exact (List.getElem?_inj hlt hids).mp (hj.trans hi.symm)

theorem fair_of_step (hids : (uploads.map Upload.id).Nodup) {a : Nat × Luck}
    (h : s.Fair k uploads) (hok : s.Healthy a) (hs : step sv s a = some t) :
    t.Fair k uploads := by
  obtain ⟨part, hstands, hlen, hrest⟩ := h
  obtain ⟨i, luck⟩ := a
  unfold step at hs
  cases hp : s.rest[i]? with
  | none =>
    simp only [hp] at hs
    cases hs
  | some p =>
    simp only [hp] at hs
    obtain ⟨⟨q, w'⟩, hq, rfl⟩ := Option.map_eq_some_iff.mp hs
    obtain ⟨op, next, rfl, rfl, rfl⟩ := step_cases hq
    obtain ⟨hlt, -⟩ := List.getElem?_eq_some_iff.mp hp
    obtain ⟨u, hu⟩ : ∃ u, uploads[i]? = some u := ⟨_, List.getElem?_eq_getElem (hlen ▸ hlt)⟩
    have hmem : u ∈ uploads := List.mem_of_getElem? hu
    have hinj : ∀ v ∈ uploads, v.id = u.id → v = u := fun v hv hid =>
      List.inj_on_of_nodup_map hids hv hmem hid
    obtain ⟨hop, hthen⟩ := hrest i u _ hu hp
    -- what the step does to the upload, whether or not its audit write is lost
    have hgoes : (k.duty u).expected (part u.id) op (effect sv luck op s.world).1 ∧
        k.Stands uploads (Function.update part u.id
          ((k.duty u).next (part u.id) op (effect sv luck op s.world).1))
          (effect sv luck op s.world).2 := by
      by_cases hfine : luck = .fine
      · rw [hfine]
        exact Content.goes hstands hmem hinj rfl hop
      · obtain ⟨d, event, again, next', hcall⟩ := hok.resolve_left hfine
        obtain rfl : op = .audit d event again := by
          have hboth := Option.some.inj (hp.symm.trans hcall)
          injection hboth
        have heffect : effect sv luck (.audit d event again) s.world = (.ok (), s.world) := by
          simp [effect, hfine]
        rw [heffect]
        exact Content.goes_unaudited hstands rfl hop
    obtain ⟨hexpected, hstands'⟩ := hgoes
    refine ⟨_, hstands', by simp [hlen], ?_⟩
    intro j v p' hv hp'
    by_cases hj : j = i
    · subst hj
      obtain rfl := Option.some.inj (hu.symm.trans hv)
      rw [List.getElem?_set_self hlt] at hp'
      obtain rfl := Option.some.inj hp'
      rw [Function.update_self]
      exact hthen _ hexpected
    · rw [List.getElem?_set_ne fun he => hj he.symm] at hp'
      rw [Function.update_of_ne fun hid => hj (index_inj hids hu hv hid)]
      exact hrest j v p' hv hp'

/-- Once all are done, each upload is promoted or a duplicate. -/
theorem decided_of_finished {part : DocumentId → Part} (hlen : s.rest.length = uploads.length)
    (hrest : ∀ (i : Nat) (u : Upload) (p : Stage JobOutcome),
      uploads[i]? = some u → s.rest[i]? = some p → k.Dutiful u (part u.id) p)
    (hfin : s.Finished) {u : Upload} (hu : u ∈ uploads) : Content.Decided (part u.id) := by
  obtain ⟨i, hi, rfl⟩ := List.mem_iff_getElem.mp hu
  have hp : s.rest[i]? = some s.rest[i] := List.getElem?_eq_getElem (hlen ▸ hi)
  have hduty := hrest i _ _ (List.getElem?_eq_getElem hi) hp
  have hended := hfin s.rest[i] (List.getElem_mem _)
  cases hcase : s.rest[i] with
  | ret a =>
    rw [hcase] at hduty
    exact hduty.1
  | raise e =>
    rw [hcase] at hduty
    exact hduty.1
  | call op next =>
    rw [hcase] at hended
    cases hended

end RaceState

/-- Of uploads of the same content, scanned in any order and interleaved in any way, one is
promoted, under the strictest tier of them all, and all the others are duplicates of it. -/
theorem strictest_tier_wins {sv : Services} {data : Bytes} {mimeType : String} {w : World}
    {uploads : List Upload} {as : List (Nat × Luck)} {s : RaceState}
    (hv : (sv.validateDocument data mimeType).isValid = true)
    (hids : (uploads.map Upload.id).Nodup) (hsome : uploads ≠ [])
    (hfresh : ∀ u ∈ uploads, w.doc u.id = none)
    (hnew : ∀ id r, w.doc id = some r → r.active = true →
      r.checksum ≠ some (sv.validateDocument data mimeType).sha256)
    (hruns : Transition.Runs (RaceState.step sv) RaceState.Healthy
      (RaceState.start sv data mimeType w uploads) as s)
    (hfin : s.Finished) :
    ∃ v ∈ uploads,
      (∃ r, s.world.doc v.id = some r ∧ r.status = .validated ∧
        r.checksum = some (sv.validateDocument data mimeType).sha256 ∧
        ((∃ u ∈ uploads, u.tier = .restricted) → r.classification = some .restricted)) ∧
      ∀ u ∈ uploads, u.id ≠ v.id → ∃ r, s.world.doc u.id = some r ∧ r.status = .duplicate := by
  have hfair : s.Fair ⟨data, mimeType, (sv.validateDocument data mimeType).sha256⟩ uploads :=
    hruns.invariant (fun _ _ _ h hok hs => RaceState.fair_of_step hids h hok hs)
      (RaceState.fair_start hv hfresh hnew)
  obtain ⟨part, hstands, hlen, hrest⟩ := hfair
  have hdecided : ∀ u ∈ uploads, Content.Decided (part u.id) := fun u hu =>
    RaceState.decided_of_finished hlen hrest hfin hu
  obtain ⟨v, hvm, hpv⟩ : ∃ v ∈ uploads, part v.id = .won := by
    obtain ⟨u, hu⟩ := List.exists_mem_of_ne_nil uploads hsome
    rcases hdecided u hu with hwon | hdropped
    · exact ⟨u, hu, hwon⟩
    · obtain ⟨v, hvm, -, hpv, -⟩ := hstands.winner hu hdropped rfl
      exact ⟨v, hvm, hpv⟩
  have hrow := hstands.row v hvm
  rw [hpv] at hrow
  obtain ⟨r, hr, hstatus, hsum, htier⟩ := hrow
  refine ⟨v, hvm, ⟨r, hr, hstatus, hsum, ?_⟩, ?_⟩
  · rintro ⟨u, hu, hrestricted⟩
    rcases hdecided u hu with hwon | hdropped
    · have hid := hstands.won_unique hu hvm hwon hpv
      obtain rfl := List.inj_on_of_nodup_map hids hu hvm hid
      exact htier.elim (fun hown => hown.trans (congrArg some hrestricted)) id
    · obtain ⟨c, hc, -, hpc, -, hpaid⟩ := hstands.winner hu hdropped rfl
      exact hpaid rfl hrestricted r (hstands.won_unique hc hvm hpc hpv ▸ hr)
  · intro u hu hne
    have hdropped := (hdecided u hu).resolve_left fun hwon =>
      hne (hstands.won_unique hu hvm hwon hpv)
    have hrowu := hstands.row u hu
    rw [hdropped] at hrowu
    exact hrowu

namespace RaceState

/-- One file, uploaded for everybody and for the few. -/
def bothTiers : List Upload :=
  [⟨0, "a.pdf", plainRequest⟩, ⟨1, "a.pdf", { plainRequest with classification := .restricted }⟩]

/-- Both look for the hash before either is promoted. -/
def bothPass : List (Nat × Luck) :=
  List.replicate 7 (0, .fine) ++ List.replicate 7 (1, .fine) ++ List.replicate 7 (0, .fine) ++
    List.replicate 8 (1, .fine)

end RaceState

open RaceState in
theorem strictest_of_both_tiers :
    ∃ v ∈ bothTiers,
      (∃ r, (Transition.finalState (step plainServices)
          (start plainServices [37] "application/pdf" World.empty bothTiers) bothPass).world.doc
            v.id = some r ∧ r.status = .validated ∧ r.checksum = some "e3b0" ∧
        ((∃ u ∈ bothTiers, u.tier = .restricted) → r.classification = some .restricted)) ∧
      ∀ u ∈ bothTiers, u.id ≠ v.id →
        ∃ r, (Transition.finalState (step plainServices)
          (start plainServices [37] "application/pdf" World.empty bothTiers) bothPass).world.doc
            u.id = some r ∧ r.status = .duplicate :=
  strictest_tier_wins rfl (by decide) (by decide) (fun _ _ => rfl) (fun _ _ h => by cases h)
    (Transition.runs_of_exec (fun _ a => decide (a.2 = .fine))
      (fun _ _ h => .inl (of_decide_eq_true h)) (by decide +kernel))
    (by decide +kernel)

end KnowledgeBase
