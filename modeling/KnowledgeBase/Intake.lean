import KnowledgeBase.AcceptedFiles
import KnowledgeBase.ScanRecovery
import KnowledgeBase.Stranding

/-! The two ways in. The files of a request are admitted all or none and then received one by
one; a folder is ingested file by file, and none stands in the way of another. -/

namespace KnowledgeBase

open Program Formats

/-- A file as the client sends it. -/
structure UploadFile where
  filename : Option String
  contentType : Option String
  data : Bytes

structure UploadLimits where
  maxFilesPerUpload : Nat
  maxBatchSizeBytes : Nat

structure UploadForm where
  classification : Classification
  description : Option String
  documentDate : Option Nat
  supersedesDocId : Option DocumentId
  keepPreviousVersion : Bool

def UploadForm.request (form : UploadForm) (owner : UserId) (batchId : Nat) : UploadRequest where
  classification := form.classification
  supersedesDocId := form.supersedesDocId
  keepPreviousVersion := form.keepPreviousVersion
  ownerId := some owner
  title := none
  description := form.description
  documentDate := form.documentDate
  uploadBatchId := some batchId

structure HTTPException where
  statusCode : Nat
  detail : String
  deriving DecidableEq

/-- What `receive` is given besides the request, and the id that it makes up. -/
structure Parcel where
  id : DocumentId
  filename : String
  data : Bytes
  mimeType : String

def UploadService.maxFileSizeBytes : Nat := 100 * 1024 * 1024

def receiveParcel (request : UploadRequest) (p : Parcel) : Stage UploadResponse :=
  UploadService.receive p.id p.filename p.data request p.mimeType

namespace Ingestion

def unprocessable (detail : String) : HTTPException := { statusCode := 422, detail }

def unsupportedMediaType (detail : String) : HTTPException := { statusCode := 415, detail }

/-- The loop over the files, with the size of those before. -/
def readFiles (T : FormatTools) (limits : UploadLimits) :
    Nat → List UploadFile → Except HTTPException (List (UploadFile × FormatSpec))
  | _, [] => .ok []
  | total, file :: files =>
    if file.data.length = 0 then
      .error (unprocessable s!"EMPTY_FILE: '{str file.filename}' is 0 bytes.")
    else if file.data.length > UploadService.maxFileSizeBytes then
      .error (unprocessable (s!"OVERSIZED_FILE: '{str file.filename}' exceeds " ++
        s!"{UploadService.maxFileSizeBytes / (1024 * 1024)} MB."))
    else if total + file.data.length > limits.maxBatchSizeBytes then
      .error (unprocessable ("BATCH_TOO_LARGE: Combined upload exceeds " ++
        s!"{limits.maxBatchSizeBytes / (1024 * 1024)} MB."))
    else
      match detectFormat T file.data with
      | none => .error (unsupportedMediaType
          s!"'{str file.filename}': {describeUnsupported file.data file.contentType}")
      | some spec =>
        (readFiles T limits (total + file.data.length) files).map ((file, spec) :: ·)

def admitted (T : FormatTools) (limits : UploadLimits) (form : UploadForm)
    (files : List UploadFile) : Except HTTPException (List (UploadFile × FormatSpec)) :=
  if files.isEmpty then .error (unprocessable "NO_FILES: At least one file is required.")
  else if files.length > limits.maxFilesPerUpload then
    .error (unprocessable
      s!"TOO_MANY_FILES: Maximum {limits.maxFilesPerUpload} files per upload request.")
  else if files.length > 1 ∧ form.supersedesDocId ≠ none then
    .error (unprocessable
      "INVALID_REQUEST: supersedes_doc_id is only valid for a single-file upload.")
  else readFiles T limits 0 files

/-- `file.filename or f"unknown{spec.extension}"`. -/
def nameFor (file : UploadFile) (spec : FormatSpec) : String :=
  match file.filename with
  | none => s!"unknown{spec.extension}"
  | some name => if name = "" then s!"unknown{spec.extension}" else name

def parcel (ids : Nat → DocumentId) (k : Nat) (content : UploadFile × FormatSpec) : Parcel where
  id := ids k
  filename := nameFor content.1 content.2
  data := content.1.data
  mimeType := content.2.mimeType

def receiveAll (request : UploadRequest) : List Parcel → Stage (List UploadResponse)
  | [] => return []
  | p :: ps => do
    let response ← receiveParcel request p
    let responses ← receiveAll request ps
    return response :: responses

def uploadDocuments (T : FormatTools) (limits : UploadLimits) (ids : Nat → DocumentId)
    (batchId : Nat) (form : UploadForm) (owner : UserId) (files : List UploadFile) :
    Stage (Except HTTPException (List UploadResponse)) :=
  match admitted T limits form files with
  | .error e => return .error e
  | .ok contents => do
    let responses ← receiveAll (form.request owner batchId) (contents.mapIdx (parcel ids))
    return .ok responses

end Ingestion

namespace BulkIngest

/-- A file of the folder, with what comes of reading it. -/
structure Path where
  path : String
  name : String
  readBytes : Except String Bytes

structure Tally where
  queued : List String
  duplicates : List String
  unsupported : List (String × String)
  failed : List (String × String)
  skippedEmpty : List String

namespace Tally

def empty : Tally :=
  { queued := [], duplicates := [], unsupported := [], failed := [], skippedEmpty := [] }

def seen (tally : Tally) : Nat :=
  tally.queued.length + tally.duplicates.length + tally.unsupported.length + tally.failed.length +
    tally.skippedEmpty.length

end Tally

def ingestOne (T : FormatTools) (id : DocumentId) (request : UploadRequest) (file : Path)
    (tally : Tally) : Stage Tally :=
  match file.readBytes with
  | .error e => return { tally with failed := tally.failed ++ [(file.path, s!"unreadable: {e}")] }
  | .ok data =>
    if data.isEmpty then return { tally with skippedEmpty := tally.skippedEmpty ++ [file.path] }
    else
      match detectFormat T data with
      | none => return { tally with
          unsupported := tally.unsupported ++ [(file.path, "not a PDF/DOCX/XLSX/PPTX")] }
      | some spec => do
        let response ← attempt (receiveParcel request
          { id, filename := file.name, data, mimeType := spec.mimeType })
        match response with
        | .error e => return { tally with failed := tally.failed ++ [(file.path, e.message)] }
        | .ok response =>
          if response.wasDuplicate then
            return { tally with duplicates := tally.duplicates ++ [file.path] }
          else return { tally with queued := tally.queued ++ [file.path] }

/-- The loop of `main`, from the `k`-th id on. -/
def ingest (T : FormatTools) (ids : Nat → DocumentId) (request : UploadRequest) :
    Nat → List Path → Tally → Stage Tally
  | _, [], tally => return tally
  | k, file :: files, tally => do
    let tally ← ingestOne T (ids k) request file tally
    ingest T ids request (k + 1) files tally

end BulkIngest

variable {sv : Services} {T : FormatTools} {request : UploadRequest} {w w' : World}

section Parcels

/-- The document is there as it was sent, and waits for its scan. -/
structure Taken (request : UploadRequest) (w : World) (p : Parcel) : Prop where
  doc : w.doc p.id = some (UploadService.received p.id p.filename p.data request p.mimeType)
  object : w.objects .quarantine (buildQuarantineKey p.id p.mimeType) = some p.data
  job : ∃ r ∈ w.jobs, r.documentId = p.id ∧ r.stage = .scan ∧ r.status = .pending

/-- Nothing of the document is there. -/
structure Absent (w : World) (id : DocumentId) : Prop where
  doc : w.doc id = none
  object : ∀ extension, w.objects .quarantine (.ofDocument id extension) = none
  job : ∀ r ∈ w.jobs, r.documentId ≠ id

/-- Only the documents of some ids have been touched. -/
structure Elsewhere (P : DocumentId → Prop) (w w' : World) : Prop where
  doc : ∀ id, ¬ P id → w'.doc id = w.doc id
  object : ∀ id extension, ¬ P id →
    w'.objects .quarantine (.ofDocument id extension) =
      w.objects .quarantine (.ofDocument id extension)
  job : ∃ added, w'.jobs = w.jobs ++ added ∧ ∀ r ∈ added, P r.documentId

variable {P Q : DocumentId → Prop} {id : DocumentId} {p : Parcel}

theorem Elsewhere.refl (P : DocumentId → Prop) (w : World) : Elsewhere P w w :=
  ⟨fun _ _ => rfl, fun _ _ _ => rfl, [], (List.append_nil _).symm, List.forall_mem_nil _⟩

theorem Elsewhere.trans {v : World} (h : Elsewhere P w v) (h' : Elsewhere P v w') :
    Elsewhere P w w' where
  doc id hid := (h'.doc id hid).trans (h.doc id hid)
  object id extension hid := (h'.object id extension hid).trans (h.object id extension hid)
  job := by
    obtain ⟨added, hjobs, hadded⟩ := h.job
    obtain ⟨more, hjobs', hmore⟩ := h'.job
    refine ⟨added ++ more, by rw [hjobs', hjobs, List.append_assoc], fun r hr => ?_⟩
    exact (List.mem_append.mp hr).elim (hadded r) (hmore r)

theorem Elsewhere.mono (h : Elsewhere P w w') (hPQ : ∀ id, P id → Q id) : Elsewhere Q w w' where
  doc id hid := h.doc id fun hp => hid (hPQ id hp)
  object id extension hid := h.object id extension fun hp => hid (hPQ id hp)
  job := by
    obtain ⟨added, hjobs, hadded⟩ := h.job
    exact ⟨added, hjobs, fun r hr => hPQ _ (hadded r hr)⟩

theorem Taken.elsewhere (ht : Taken request w p) (h : Elsewhere P w w') (hp : ¬ P p.id) :
    Taken request w' p where
  doc := (h.doc p.id hp).trans ht.doc
  object := (h.object p.id _ hp).trans ht.object
  job := by
    obtain ⟨r, hr, hjob⟩ := ht.job
    obtain ⟨added, hjobs, -⟩ := h.job
    exact ⟨r, hjobs ▸ List.mem_append_left _ hr, hjob⟩

theorem Absent.elsewhere (ha : Absent w id) (h : Elsewhere P w w') (hid : ¬ P id) :
    Absent w' id where
  doc := (h.doc id hid).trans ha.doc
  object extension := (h.object id extension hid).trans (ha.object extension)
  job := by
    obtain ⟨added, hjobs, hadded⟩ := h.job
    intro r hr he
    rcases List.mem_append.mp (hjobs ▸ hr) with hr | hr
    · exact ha.job r hr he
    · exact hid (he ▸ hadded r hr)

end Parcels

section Receiving

variable {id : DocumentId} {p : Parcel} {op : Op} {r : Except Exn op.Resp}

/-- What an upload sends. -/
def Lands (id : DocumentId) : Op → Prop
  | .putObject b key _ => b = .quarantine ∧ ∃ extension, key = .ofDocument id extension
  | .create doc => doc.id = id
  | .enqueue k _ => k = id
  | .audit _ _ _ => True
  | _ => False

theorem receive_lands (request : UploadRequest) (p : Parcel) :
    (receiveParcel request p).Sends (Lands p.id) fun _ _ => True := by
  refine sends_bind (sends_perform ⟨rfl, _, rfl⟩) fun _ => ?_
  refine sends_bind (sends_perform rfl) fun _ => ?_
  refine sends_bind (sends_perform rfl) fun _ => ?_
  exact sends_bind (sends_perform trivial) fun _ => trivial

theorem acts_putObject {b : Bucket} {key : ObjectKey} {data : Bytes} {r : Except Exn Unit}
    (h : Acts sv (.putObject b key data) w r w') :
    (∃ e, r = .error e ∧ w' = w) ∨ r = .ok () ∧ w' = w.setObject b key (some data) := by
  obtain ⟨c, hc⟩ := h
  obtain ⟨rfl, rfl⟩ := Prod.mk.inj hc
  cases c with
  | fails m => exact .inl ⟨_, rfl, rfl⟩
  | fine | silent => exact .inr ⟨rfl, rfl⟩

theorem elsewhere_of_acts (hop : Lands id op) (h : Acts sv op w r w') :
    Elsewhere (· = id) w w' := by
  cases op
  case putObject b key data =>
    obtain ⟨rfl, extension, rfl⟩ := hop
    rcases acts_putObject h with ⟨e, -, rfl⟩ | ⟨-, rfl⟩
    · exact .refl _ _
    · refine ⟨fun _ _ => rfl, fun k extension' hk => ?_, [], (List.append_nil _).symm,
        List.forall_mem_nil _⟩
      have hne : ObjectKey.ofDocument k extension' ≠ .ofDocument id extension :=
        fun he => hk (ObjectKey.ofDocument.inj he).1
      simp only [World.setObject, Function.update_self, Function.update_of_ne hne]
  case create doc =>
    obtain rfl := hop
    rcases acts_create.mp h with ⟨-, -, rfl⟩ | ⟨t, ht, -, rfl⟩
    · exact .refl _ _
    · refine ⟨fun k hk => ?_, fun _ _ _ => rfl, [], (List.append_nil _).symm, List.forall_mem_nil _⟩
      show t.get k = w.documents.get k
      rw [Documents.insert_get ht, Document.created, if_neg (Ne.symm hk), Option.or_none]
  case enqueue k stage =>
    obtain rfl := hop
    obtain ⟨-, rfl⟩ := acts_enqueue.mp h
    exact ⟨fun _ _ => rfl, fun _ _ _ => rfl, _, rfl, fun r hr => List.mem_singleton.mp hr ▸ rfl⟩
  case audit =>
    obtain ⟨-, a, rfl⟩ := acts_audit h
    exact ⟨fun _ _ => rfl, fun _ _ _ => rfl, [], (List.append_nil _).symm, List.forall_mem_nil _⟩
  all_goals exact hop.elim

theorem receive_visits (h : Visits (Acts sv) (receiveParcel request p) w w') :
    Elsewhere (· = p.id) w w' :=
  h.invariant (I := Elsewhere (· = p.id) w) (receive_lands request p)
    (fun _ _ _ _ hop hact hs => hs.trans (elsewhere_of_acts hop hact)) (.refl _ w)

theorem receive_elsewhere {o : Except Exn UploadResponse}
    (h : Ends (Acts sv) (receiveParcel request p) w o w') : Elsewhere (· = p.id) w w' :=
  h.invariant (I := Elsewhere (· = p.id) w) (receive_lands request p)
    (fun _ _ _ _ hop hact hs => hs.trans (elsewhere_of_acts hop hact)) (.refl _ w)

/-- Either the file could not be stored, and nothing has come of it, or it is taken in. -/
theorem receive_outcome {o : Except Exn UploadResponse} (hfresh : Absent w p.id)
    (h : Ends (Acts sv) (receiveParcel request p) w o w') :
    (∃ e, o = .error e ∧ w' = w) ∨ ∃ response, o = .ok response ∧
      response.documentId = p.id ∧ response.wasDuplicate = false ∧ Taken request w' p := by
  rw [receiveParcel, UploadService.receive] at h
  rcases ends_send_bind.mp h with ⟨e, he, rfl⟩ | ⟨_, u, hput, h⟩
  · rcases acts_putObject he with ⟨e', he', rfl⟩ | ⟨hok, -⟩
    · exact .inl ⟨e, rfl, rfl⟩
    · cases hok
  · rcases acts_putObject hput with ⟨e, he, -⟩ | ⟨-, rfl⟩
    · cases he
    · have hnew : (w.setObject .quarantine (buildQuarantineKey p.id p.mimeType)
          (some p.data)).documents.get p.id = none := hfresh.doc
      obtain ⟨t, ht⟩ := Documents.insert_accepted (d := (UploadService.received p.id p.filename
        p.data request p.mimeType).created) hnew rfl (Option.some_ne_none _)
      rcases ends_send_bind.mp h with ⟨e, he, -⟩ | ⟨_, v, hcreate, h⟩
      · rcases acts_create.mp he with ⟨hn, -⟩ | ⟨_, -, hok, -⟩
        · exact nomatch hn.symm.trans ht
        · cases hok
      · rcases acts_create.mp hcreate with ⟨hn, -⟩ | ⟨t', ht', -, rfl⟩
        · exact nomatch hn.symm.trans ht
        · obtain ⟨a, h⟩ := ends_audit_bind (ends_enqueue_bind.mp h)
          obtain ⟨rfl, rfl⟩ := ends_ret.mp h
          have hobject : (w.setObject .quarantine (buildQuarantineKey p.id p.mimeType)
              (some p.data)).objects .quarantine (buildQuarantineKey p.id p.mimeType) =
                some p.data := ScanJobHandler.setObject_objects_self w _ _ _
          refine .inr ⟨_, rfl, rfl, rfl, ?_, hobject, ?_⟩
          · show t'.get p.id = _
            rw [Documents.insert_get ht', hnew, Option.none_or]
            exact if_pos rfl
          · exact ⟨_, List.mem_append_right _ (List.mem_singleton.mpr rfl), rfl, rfl, rfl⟩

end Receiving

namespace Ingestion

section Uploads

variable {ids : Nat → DocumentId} {limits : UploadLimits} {form : UploadForm} {batchId : Nat}
  {owner : UserId} {files : List UploadFile} {contents : List (UploadFile × FormatSpec)}

theorem readFiles_ok {total : Nat} (htotal : total ≤ limits.maxBatchSizeBytes) :
    readFiles T limits total files = .ok contents ↔
      (∀ file ∈ files, 0 < file.data.length ∧ file.data.length ≤ UploadService.maxFileSizeBytes) ∧
      total + (files.map (·.data.length)).sum ≤ limits.maxBatchSizeBytes ∧
      contents.map Prod.fst = files ∧
      ∀ content ∈ contents, detectFormat T content.1.data = some content.2 := by
  induction files generalizing total contents with
  | nil =>
    constructor
    · intro h
      obtain rfl := Except.ok.inj h
      exact ⟨List.forall_mem_nil _, htotal, rfl, List.forall_mem_nil _⟩
    · rintro ⟨-, -, h, -⟩
      rw [List.map_eq_nil_iff.mp h]
      rfl
  | cons file files ih =>
    rw [readFiles, List.forall_mem_cons, List.map_cons, List.sum_cons]
    split
    next h => exact ⟨nofun, fun ⟨⟨⟨hpos, _⟩, _⟩, _⟩ => absurd h (Nat.ne_of_gt hpos)⟩
    next hpos =>
      split
      next h => exact ⟨nofun, fun ⟨⟨⟨_, hle⟩, _⟩, _⟩ => absurd h (Nat.not_lt_of_le hle)⟩
      next hle =>
        split
        next h => exact ⟨nofun, fun ⟨_, hsum, _⟩ => absurd hsum (by omega)⟩
        next hcap =>
          split
          next hnone =>
            refine ⟨nofun, fun ⟨_, _, hfst, hdetect⟩ => ?_⟩
            obtain ⟨content, rest, rfl, rfl, -⟩ := List.map_eq_cons_iff.mp hfst
            exact nomatch hnone.symm.trans (hdetect content List.mem_cons_self)
          next spec hspec =>
            constructor
            · intro h
              cases hrest : readFiles T limits (total + file.data.length) files with
              | error e =>
                rw [hrest] at h
                cases h
              | ok rest =>
                rw [hrest] at h
                obtain rfl := Except.ok.inj h
                obtain ⟨hsizes, hsum, hfst, hdetect⟩ := (ih (Nat.le_of_not_gt hcap)).mp hrest
                exact ⟨⟨⟨Nat.pos_of_ne_zero hpos, Nat.le_of_not_gt hle⟩, hsizes⟩, by omega,
                  congrArg _ hfst, List.forall_mem_cons.mpr ⟨hspec, hdetect⟩⟩
            · rintro ⟨⟨-, hsizes⟩, hsum, hfst, hdetect⟩
              obtain ⟨⟨file', spec'⟩, rest, rfl, rfl, hrest⟩ := List.map_eq_cons_iff.mp hfst
              obtain ⟨hcontent, hothers⟩ := List.forall_mem_cons.mp hdetect
              obtain rfl := Option.some.inj (hspec.symm.trans hcontent)
              rw [(ih (Nat.le_of_not_gt hcap)).mpr ⟨hsizes, by omega, hrest, hothers⟩]
              rfl

/-- A request is admitted exactly if there are files, not too many, none replacing a document
if there are several, each of a size that is allowed and of a known format, and all together
not too large. -/
theorem admitted_ok : admitted T limits form files = .ok contents ↔
    files ≠ [] ∧ files.length ≤ limits.maxFilesPerUpload ∧
      (1 < files.length → form.supersedesDocId = none) ∧
      (∀ file ∈ files, 0 < file.data.length ∧ file.data.length ≤ UploadService.maxFileSizeBytes) ∧
      (files.map (·.data.length)).sum ≤ limits.maxBatchSizeBytes ∧
      contents.map Prod.fst = files ∧
      ∀ content ∈ contents, detectFormat T content.1.data = some content.2 := by
  rw [admitted]
  split
  next h => exact ⟨nofun, fun ⟨hne, _⟩ => absurd (List.isEmpty_iff.mp h) hne⟩
  next hne =>
    split
    next h => exact ⟨nofun, fun ⟨_, hle, _⟩ => absurd h (Nat.not_lt_of_le hle)⟩
    next hle =>
      split
      next h => exact ⟨nofun, fun ⟨_, _, hone, _⟩ => absurd (hone h.1) h.2⟩
      next hone =>
        rw [readFiles_ok (Nat.zero_le _), Nat.zero_add]
        have hone' : 1 < files.length → form.supersedesDocId = none :=
          fun hlt => by_contra fun hn => hone ⟨hlt, hn⟩
        exact ⟨fun h => ⟨fun he => hne (List.isEmpty_iff.mpr he), Nat.le_of_not_gt hle, hone', h⟩,
          fun h => h.2.2.2⟩

/-- Of the files received so far all but the last are taken in, and nothing has come of the
others. -/
theorem receiveAll_visits {ps : List Parcel} (hids : (ps.map Parcel.id).Nodup)
    (hfresh : ∀ p ∈ ps, Absent w p.id) (h : Visits (Acts sv) (receiveAll request ps) w w') :
    Elsewhere (· ∈ ps.map Parcel.id) w w' ∧ ∃ pre cur post, ps = pre ++ cur ++ post ∧
      cur.length ≤ 1 ∧ (∀ p ∈ pre, Taken request w' p) ∧ ∀ p ∈ post, Absent w' p.id := by
  induction ps generalizing w with
  | nil =>
    obtain rfl := visits_pure h
    exact ⟨.refl _ _, [], [], [], rfl, Nat.zero_le _, List.forall_mem_nil _, List.forall_mem_nil _⟩
  | cons p ps ih =>
    rw [List.map_cons, List.nodup_cons] at hids
    obtain ⟨hp, hps⟩ := List.forall_mem_cons.mp hfresh
    have hother : ∀ q ∈ ps, q.id ≠ p.id := fun q hq he => hids.1 (he ▸ List.mem_map_of_mem hq)
    rcases visits_bind h with h | ⟨response, u, hreceive, h⟩
    · have helse := receive_visits h
      refine ⟨helse.mono fun id hid => hid ▸ List.mem_cons_self, [], [p], ps, rfl, Nat.le_refl _,
        nofun, fun q hq => (hps q hq).elsewhere helse (hother q hq)⟩
    · have helse := receive_elsewhere hreceive
      rcases receive_outcome hp hreceive with ⟨e, he, -⟩ | ⟨_, -, -, -, htaken⟩
      · cases he
      · have hrest : Visits (Acts sv) (receiveAll request ps) u w' := by
          rcases visits_bind h with h | ⟨responses, v, hends, h⟩
          · exact h
          · obtain rfl := visits_pure h
            exact hends.visits
        obtain ⟨helse', pre, cur, post, rfl, hcur, hpre, hpost⟩ :=
          ih hids.2 (fun q hq => (hps q hq).elsewhere helse (hother q hq)) hrest
        refine ⟨(helse.mono fun id hid => hid ▸ List.mem_cons_self).trans
          (helse'.mono fun id hid => List.mem_cons_of_mem _ hid), p :: pre, cur, post, rfl, hcur,
          List.forall_mem_cons.mpr ⟨htaken.elsewhere helse' hids.1, hpre⟩, hpost⟩

/-- However an upload is cut off: a request that is refused has changed nothing; of one that is
admitted all files up to one are taken in as they were sent, of that one there may be a part,
and of the rest nothing. No other document is touched. -/
theorem uploadDocuments_visits (hids : ids.Injective) (hfresh : ∀ k, Absent w (ids k))
    (h : Visits (Acts sv) (uploadDocuments T limits ids batchId form owner files) w w') :
    (∀ e, admitted T limits form files = .error e → w' = w) ∧
    (∀ contents, admitted T limits form files = .ok contents → ∃ pre cur post,
      contents.mapIdx (parcel ids) = pre ++ cur ++ post ∧ cur.length ≤ 1 ∧
      (∀ p ∈ pre, Taken (form.request owner batchId) w' p) ∧ ∀ p ∈ post, Absent w' p.id) ∧
    Elsewhere (∃ k, · = ids k) w w' := by
  rw [uploadDocuments] at h
  cases ha : admitted T limits form files with
  | error e =>
    rw [ha] at h
    obtain rfl := visits_pure h
    exact ⟨fun _ _ => rfl, nofun, .refl _ _⟩
  | ok contents =>
    rw [ha] at h
    have hall : Visits (Acts sv) (receiveAll (form.request owner batchId)
        (contents.mapIdx (parcel ids))) w w' := by
      rcases visits_bind h with h | ⟨responses, v, hends, h⟩
      · exact h
      · obtain rfl := visits_pure h
        exact hends.visits
    have hmap : (contents.mapIdx (parcel ids)).map Parcel.id =
        (List.range contents.length).map ids :=
      List.ext_getElem (by simp) fun k _ _ => by simp [parcel]
    have hnodup : ((contents.mapIdx (parcel ids)).map Parcel.id).Nodup :=
      hmap ▸ List.nodup_range.map hids
    have hgiven : ∀ id ∈ (contents.mapIdx (parcel ids)).map Parcel.id, ∃ k, id = ids k := by
      intro id hid
      obtain ⟨k, -, rfl⟩ := List.mem_map.mp (hmap ▸ hid)
      exact ⟨k, rfl⟩
    have hnew : ∀ p ∈ contents.mapIdx (parcel ids), Absent w p.id := by
      intro p hp
      obtain ⟨k, hk⟩ := hgiven p.id (List.mem_map_of_mem hp)
      exact hk ▸ hfresh k
    obtain ⟨helse, hsplit⟩ := receiveAll_visits hnodup hnew hall
    refine ⟨nofun, fun contents' hc => ?_, helse.mono hgiven⟩
    obtain rfl := Except.ok.inj hc
    exact hsplit

end Uploads

end Ingestion

namespace BulkIngest

section Runs

variable {ids : Nat → DocumentId} {id : DocumentId} {file : Path} {files : List Path}
  {tally tally' : Tally} {k : Nat}

/-- What becomes of a file, and where it is reported. -/
inductive Fate (T : FormatTools) (request : UploadRequest) (w : World) (tally : Tally)
    (id : DocumentId) (file : Path) : Prop
  | queued (data : Bytes) (spec : FormatSpec) (hread : file.readBytes = .ok data)
      (hspec : detectFormat T data = some spec) (hreport : file.path ∈ tally.queued)
      (htaken : Taken request w { id, filename := file.name, data, mimeType := spec.mimeType })
  | unsupported (data : Bytes) (hread : file.readBytes = .ok data)
      (hspec : detectFormat T data = none)
      (hreport : (file.path, "not a PDF/DOCX/XLSX/PPTX") ∈ tally.unsupported)
      (habsent : Absent w id)
  | skippedEmpty (hread : file.readBytes = .ok []) (hreport : file.path ∈ tally.skippedEmpty)
      (habsent : Absent w id)
  | unreadable (e : String) (hread : file.readBytes = .error e)
      (hreport : (file.path, s!"unreadable: {e}") ∈ tally.failed) (habsent : Absent w id)
  | failed (data : Bytes) (spec : FormatSpec) (message : String)
      (hread : file.readBytes = .ok data) (hspec : detectFormat T data = some spec)
      (hreport : (file.path, message) ∈ tally.failed) (habsent : Absent w id)

/-- The report after some more files. -/
structure Tally.Grown (n : Nat) (tally tally' : Tally) : Prop where
  queued : tally.queued <+: tally'.queued
  unsupported : tally.unsupported <+: tally'.unsupported
  failed : tally.failed <+: tally'.failed
  skippedEmpty : tally.skippedEmpty <+: tally'.skippedEmpty
  duplicates : tally'.duplicates = tally.duplicates
  seen : tally'.seen = tally.seen + n

theorem Tally.Grown.trans {m n : Nat} {tally'' : Tally} (h : tally.Grown m tally')
    (h' : tally'.Grown n tally'') : tally.Grown (m + n) tally'' :=
  ⟨h.queued.trans h'.queued, h.unsupported.trans h'.unsupported, h.failed.trans h'.failed,
    h.skippedEmpty.trans h'.skippedEmpty, h'.duplicates.trans h.duplicates,
    by rw [h'.seen, h.seen, Nat.add_assoc]⟩

/-- What has become of a file stays so while others are ingested. -/
theorem Fate.later {n : Nat} {P : DocumentId → Prop} (h : Fate T request w tally id file)
    (hgrown : tally.Grown n tally') (helse : Elsewhere P w w') (hid : ¬ P id) :
    Fate T request w' tally' id file := by
  cases h with
  | queued data spec hread hspec hreport htaken =>
    exact .queued data spec hread hspec (hgrown.queued.subset hreport) (htaken.elsewhere helse hid)
  | unsupported data hread hspec hreport habsent =>
    exact .unsupported data hread hspec (hgrown.unsupported.subset hreport)
      (habsent.elsewhere helse hid)
  | skippedEmpty hread hreport habsent =>
    exact .skippedEmpty hread (hgrown.skippedEmpty.subset hreport) (habsent.elsewhere helse hid)
  | unreadable e hread hreport habsent =>
    exact .unreadable e hread (hgrown.failed.subset hreport) (habsent.elsewhere helse hid)
  | failed data spec message hread hspec hreport habsent =>
    exact .failed data spec message hread hspec (hgrown.failed.subset hreport)
      (habsent.elsewhere helse hid)

theorem grown_append (tally : Tally) (queued : List String)
    (unsupported failed : List (String × String)) (skippedEmpty : List String) :
    tally.Grown (queued.length + unsupported.length + failed.length + skippedEmpty.length)
      { queued := tally.queued ++ queued
        duplicates := tally.duplicates
        unsupported := tally.unsupported ++ unsupported
        failed := tally.failed ++ failed
        skippedEmpty := tally.skippedEmpty ++ skippedEmpty } := by
  refine ⟨List.prefix_append _ _, List.prefix_append _ _, List.prefix_append _ _,
    List.prefix_append _ _, rfl, ?_⟩
  simp only [Tally.seen, List.length_append]
  omega

theorem ingestOne_ends {o : Except Exn Tally} (hfresh : Absent w id)
    (h : Ends (Acts sv) (ingestOne T id request file tally) w o w') :
    ∃ tally', o = .ok tally' ∧ tally.Grown 1 tally' ∧ Elsewhere (· = id) w w' ∧
      Fate T request w' tally' id file := by
  rw [ingestOne] at h
  split at h
  next e hread =>
    obtain ⟨rfl, rfl⟩ := ends_ret.mp h
    exact ⟨_, rfl, by simpa using grown_append tally [] [] [_] [], .refl _ _,
      .unreadable e hread List.mem_concat_self hfresh⟩
  next data hread =>
    split at h
    next hempty =>
      obtain ⟨rfl, rfl⟩ := ends_ret.mp h
      obtain rfl := List.isEmpty_iff.mp hempty
      exact ⟨_, rfl, by simpa using grown_append tally [] [] [] [_], .refl _ _,
        .skippedEmpty hread List.mem_concat_self hfresh⟩
    next =>
      split at h
      next hspec =>
        obtain ⟨rfl, rfl⟩ := ends_ret.mp h
        exact ⟨_, rfl, by simpa using grown_append tally [] [_] [] [], .refl _ _,
          .unsupported data hread hspec List.mem_concat_self hfresh⟩
      next spec hspec =>
        obtain ⟨r, u, hreceive, hrest⟩ := ends_attempt_bind.mp h
        have helse := receive_elsewhere hreceive
        rcases receive_outcome hfresh hreceive with ⟨e, rfl, rfl⟩ | ⟨response, rfl, -, hdup, htaken⟩
        · obtain ⟨rfl, rfl⟩ := ends_ret.mp hrest
          exact ⟨_, rfl, by simpa using grown_append tally [] [] [_] [], helse,
            .failed data spec _ hread hspec List.mem_concat_self hfresh⟩
        · dsimp only at hrest
          rw [hdup, if_neg Bool.false_ne_true] at hrest
          obtain ⟨rfl, rfl⟩ := ends_ret.mp hrest
          exact ⟨_, rfl, by simpa using grown_append tally [_] [] [] [], helse,
            .queued data spec hread hspec List.mem_concat_self htaken⟩

theorem ingest_ends_from {o : Except Exn Tally} (hids : ids.Injective)
    (hfresh : ∀ j, k ≤ j → Absent w (ids j))
    (h : Ends (Acts sv) (ingest T ids request k files tally) w o w') :
    ∃ tally', o = .ok tally' ∧ tally.Grown files.length tally' ∧
      Elsewhere (fun id => ∃ j, k ≤ j ∧ id = ids j) w w' ∧
      ∀ j file, files[j]? = some file → Fate T request w' tally' (ids (k + j)) file := by
  induction files generalizing k w tally with
  | nil =>
    obtain ⟨rfl, rfl⟩ := ends_ret.mp h
    exact ⟨_, rfl, ⟨List.prefix_rfl, List.prefix_rfl, List.prefix_rfl, List.prefix_rfl, rfl, rfl⟩,
      .refl _ _, nofun⟩
  | cons file files ih =>
    rcases ends_bind.mp h with ⟨e, he, -⟩ | ⟨tally₁, u, hone, hrest⟩
    · obtain ⟨_, hok, -⟩ := ingestOne_ends (hfresh k (Nat.le_refl k)) he
      cases hok
    · obtain ⟨_, hok, hgrown, helse, hfate⟩ := ingestOne_ends (hfresh k (Nat.le_refl k)) hone
      obtain rfl := Except.ok.inj hok
      have hfresh' : ∀ j, k + 1 ≤ j → Absent u (ids j) := fun j hj =>
        (hfresh j (by omega)).elsewhere helse fun he => absurd (hids he) (by omega)
      obtain ⟨tally', rfl, hgrown', helse', hfates⟩ := ih hfresh' hrest
      refine ⟨tally', rfl, ?_, ?_, ?_⟩
      · rw [List.length_cons, Nat.add_comm]
        exact hgrown.trans hgrown'
      · refine (helse.mono ?_).trans (helse'.mono ?_)
        · exact fun id hid => ⟨k, Nat.le_refl k, hid⟩
        · exact fun id ⟨j, hj, hid⟩ => ⟨j, by omega, hid⟩
      · intro j f hj
        cases j with
        | zero =>
          obtain rfl := Option.some.inj hj
          refine hfate.later hgrown' helse' ?_
          rintro ⟨j, hle, he⟩
          exact absurd (hids he) (by omega)
        | succ j =>
          rw [show k + (j + 1) = k + 1 + j by omega]
          exact hfates j f hj

end Runs

end BulkIngest

section Examples

open Ingestion BulkIngest

theorem empty_absent (id : DocumentId) : Absent World.empty id :=
  ⟨rfl, fun _ => rfl, List.forall_mem_nil _⟩

def plainForm : UploadForm where
  classification := .public
  description := none
  documentDate := none
  supersedesDocId := none
  keepPreviousVersion := true

def fiveUploads : UploadLimits where
  maxFilesPerUpload := 5
  maxBatchSizeBytes := 250 * 1024 * 1024

/-- Two files of one request, the second of which the client calls something else. -/
def twoFiles : List UploadFile :=
  [{ filename := some "memo.pdf", contentType := none, data := asciiBytes "%PDF-" },
    { filename := some "memo.docx", contentType := some "application/octet-stream",
      data := tinyDocx }]

def twoUploads : Stage (Except HTTPException (List UploadResponse)) :=
  uploadDocuments tinyTools fiveUploads id 0 plainForm 7 twoFiles

/-- It is cut off after the row of the second file. -/
def cutUploads : World :=
  (Program.after (effect plainServices) (fun _ => .fine) 6 twoUploads World.empty).2

theorem cutUploads_visits :
    (∀ e, admitted tinyTools fiveUploads plainForm twoFiles = .error e → cutUploads = World.empty) ∧
    (∀ contents, admitted tinyTools fiveUploads plainForm twoFiles = .ok contents →
      ∃ pre cur post, contents.mapIdx (parcel id) = pre ++ cur ++ post ∧ cur.length ≤ 1 ∧
      (∀ p ∈ pre, Taken (plainForm.request 7 0) cutUploads p) ∧
        ∀ p ∈ post, Absent cutUploads p.id) ∧
    Elsewhere (∃ k, · = id k) World.empty cutUploads :=
  uploadDocuments_visits Function.injective_id empty_absent
    (visits_after (fun _ _ _ => ⟨_, rfl⟩) 6 twoUploads World.empty)

/-- A folder with a document, an empty file, a text and a file that cannot be read. -/
def folder : List Path :=
  [{ path := "in/memo.docx", name := "memo.docx", readBytes := .ok tinyDocx },
    { path := "in/empty.pdf", name := "empty.pdf", readBytes := .ok [] },
    { path := "in/notes.pdf", name := "notes.pdf", readBytes := .ok (asciiBytes "notes") },
    { path := "in/locked.pdf", name := "locked.pdf", readBytes := .error "Permission denied" }]

def folderIngest : Except Exn Tally × World :=
  Program.run (effect plainServices) (fun _ => .fine)
    (ingest tinyTools id (plainForm.request 7 0) 0 folder .empty) World.empty

end Examples

end KnowledgeBase
