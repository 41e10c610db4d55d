import KnowledgeBase.Provenance
import KnowledgeBase.SafeOperations

/-! Where the stored content comes from, in every run: uploads, the stages with their crashes and
retries, a delete and what people do to a document by hand, one operation at a time. -/

namespace KnowledgeBase

open Program RunningState Transition World

/-- The pipeline with a delete beside it, and what is done to a document by hand. -/
inductive ArchiveAction where
  | erasing (a : ErasingAction)
  | reclassify (id : DocumentId) (tier : Classification)
  | softDelete (id : DocumentId)
  | restore (id : DocumentId)

def archiveStep (sv : Services) (fleet : Fleet) (s : ErasingState) :
    ArchiveAction → Option ErasingState
  | .erasing a => s.step sv fleet a
  | .reclassify id tier =>
    some { s with running := { s.running with world := s.world.setClassification id tier } }
  | .softDelete id =>
    some { s with running := { s.running with world := (s.world.softDelete id).2 } }
  | .restore id => some { s with running := { s.running with world := (s.world.restore id).2 } }

/-- What an action brings in. -/
def ArchiveAction.receipt : ArchiveAction → Option (DocumentId × Receipt)
  | .erasing (.run (.receive id _ data _ mimeType)) => some (id, { data, mimeType })
  | _ => none

/-- What was uploaded in a run, with the ids it was given. -/
def receipts (as : List ArchiveAction) : List (DocumentId × Receipt) :=
  as.filterMap ArchiveAction.receipt

/-- Nothing is stored. -/
structure Blank (w : World) : Prop where
  objects : ∀ b key, w.objects b key = none
  extracted : ∀ key, w.extracted key = none
  normalized : ∀ key, w.normalized key = none

/-- The action brings in nothing but what is on record. -/
def Recorded (up : Receipts) (a : ArchiveAction) : Prop :=
  ∀ id u, a.receipt = some (id, u) → up id = some u

/-- All that is stored goes back to the uploads, and the programs at work keep it so. -/
abbrev VouchedState (sv : Services) (up : Receipts) (s : RunningState) : Prop :=
  Keeping (Vouched sv up) (Vouches sv up) (Told sv up) s

variable {sv : Services} {up : Receipts} {fleet : Fleet} {w w' : World}

theorem Vouched.same (hw : Vouched sv up w) (hd : w'.documents = w.documents)
    (ho : w'.objects = w.objects) (he : w'.extracted = w.extracted)
    (hn : w'.normalized = w.normalized) (hc : w'.chunks = w.chunks) : Vouched sv up w' := by
  have hdoc : ∀ id, w'.doc id = w.doc id := fun id => by rw [World.doc, World.doc, hd]
  refine hw.shrinks (fun id row' hr' => ⟨row', hdoc id ▸ hr', fun _ ht => ht⟩) ?_ ?_ ?_ ?_
  · intro b key data h
    rwa [ho] at h
  · intro key r h
    rwa [he] at h
  · intro key n h
    rwa [hn] at h
  · intro c h
    exact ⟨c, hc ▸ h, rfl, rfl⟩

theorem Vouched.of_blank (hrows : w.documents.rows = []) (hchunks : w.chunks = [])
    (hw : Blank w) : Vouched sv up w where
  rows id row hr := by
    have hm := Documents.mem_of_get hr
    rw [hrows] at hm
    cases hm
  quarantine key data h := by
    rw [hw.objects] at h
    cases h
  raw key data h := by
    rw [hw.objects] at h
    cases h
  extracted id r h := by
    rw [hw.extracted] at h
    cases h
  normalized id n h := by
    rw [hw.normalized] at h
    cases h
  chunks c h := by
    rw [hchunks] at h
    cases h

section Deletes

theorem Vouched.purge (hw : Vouched sv up w) (id : DocumentId) : Vouched sv up (w.purge id) := by
  obtain ⟨t, ht⟩ := w.purge_eq id
  have hget := fun k => (congrArg (fun v : World => v.doc k) ht).symm.trans (w.purge_doc id k)
  rw [ht]
  refine hw.of_rows hget fun k row u hrow => ?_
  split
  · exact hrow.purged w.now
  · exact hrow

theorem Vouched.purgeDuplicatesOf (hw : Vouched sv up w) (sha256 : Sha256) :
    Vouched sv up (w.purgeDuplicatesOf sha256) := by
  obtain ⟨t, ht⟩ := w.purgeDuplicatesOf_eq sha256
  have hget := fun k => (congrArg (fun v : World => v.doc k) ht).symm.trans
    (w.purgeDuplicatesOf_doc sha256 k)
  rw [ht]
  refine hw.of_rows hget fun k row u hrow => ?_
  split
  · exact hrow.purgedDuplicate w.now
  · exact hrow

theorem Vouched.removeObject (hw : Vouched sv up w) (b : Bucket) (path : Option ObjectKey) :
    Vouched sv up (w.removeObject b path) := by
  cases path with
  | none => exact hw
  | some key => exact hw.removed b key

theorem Vouched.removeSlot (hw : Vouched sv up w) (doc : Document) (slot : EraseSlot) :
    Vouched sv up (w.removeSlot doc slot) := by
  have hupdate : ∀ {β : Type} (f : ObjectKey → Option β) (k key : ObjectKey) (v : β),
      Function.update f k none key = some v → f key = some v := by
    intro β f k key v h
    rw [Function.update_apply] at h
    split at h
    · cases h
    · exact h
  cases slot with
  | raw => exact hw.removeObject .raw doc.rawPath
  | quarantine => exact hw.removeObject .quarantine doc.quarantinePath
  | extracted =>
    exact hw.shrinks (fun _ row' hr' => ⟨row', hr', fun _ ht => ht⟩) (fun _ _ _ h => h)
      (fun key r => hupdate _ _ key r) (fun _ _ h => h) fun c hc => ⟨c, hc, rfl, rfl⟩
  | normalized =>
    exact hw.shrinks (fun _ row' hr' => ⟨row', hr', fun _ ht => ht⟩) (fun _ _ _ h => h)
      (fun _ _ h => h) (fun key n => hupdate _ _ key n) fun c hc => ⟨c, hc, rfl, rfl⟩

theorem vouched_of_moves {e : Eraser} {fine : Bool} {x : Eraser ⊕ EraseOutcome}
    (h : e.Moves fine w x w') (hw : Vouched sv up w) : Vouched sv up w' := by
  cases h with
  | refused | unclaimed | absent => exact hw
  | claimed => exact hw.same rfl rfl rfl rfl rfl
  | removed doc _ slot => exact hw.removeSlot doc slot
  | unindexed =>
    exact hw.shrinks (fun _ row' hr' => ⟨row', hr', fun _ ht => ht⟩) (fun _ _ _ h => h)
      (fun _ _ h => h) (fun _ _ h => h) fun c hc => ⟨c, (List.mem_filter.mp hc).1, rfl, rfl⟩
  | purged doc => exact hw.purge doc.id
  | erased doc =>
    split
    · exact hw
    · exact hw.purgeDuplicatesOf _

end Deletes

section Runs

theorem vouches_safe (sv : Services) (up : Receipts) :
    Safe sv (Vouched sv up) (Vouches sv up) (Told sv up) where
  keeps := vouched_of_acts
  expects hact hw := ⟨_, _, hw, hact⟩
  jobs := processJob_faithful sv up

theorem vouched_of_step {s t : RunningState} {a : RunAction}
    (hrec : ∀ id filename data request mimeType, a = .receive id filename data request mimeType →
      up id = some { data, mimeType })
    (hs : VouchedState sv up s) (h : s.step sv fleet a = some t) : VouchedState sv up t :=
  hs.step (vouches_safe sv up)
    (fun id filename data request mimeType ha =>
      receive_faithful (hrec id filename data request mimeType ha))
    (fun _ _ _ _ hw => hw.same rfl rfl rfl rfl rfl) h

theorem archive_vouched {s t : ErasingState} {a : ArchiveAction} (hrec : Recorded up a)
    (hs : VouchedState sv up s.running) (h : archiveStep sv fleet s a = some t) :
    VouchedState sv up t.running := by
  have hedit : ∀ {op : Op} {r : Except Exn op.Resp} {v : World}, Vouches sv up op →
      Acts sv op s.world r v → VouchedState sv up { s.running with world := v } :=
    fun hop hact => hs.edit (vouched_of_acts hop hact hs.world)
  cases a with
  | reclassify id tier =>
    obtain rfl := Option.some.inj h
    have hop : Vouches sv up (.setClassification id tier) := trivial
    have hact : Acts sv (.setClassification id tier) s.world _ _ := ⟨.fine, rfl⟩
    exact hedit hop hact
  | softDelete id =>
    obtain rfl := Option.some.inj h
    have hop : Vouches sv up (.softDelete id) := trivial
    have hact : Acts sv (.softDelete id) s.world _ _ := ⟨.fine, rfl⟩
    exact hedit hop hact
  | restore id =>
    obtain rfl := Option.some.inj h
    have hop : Vouches sv up (.restore id) := trivial
    have hact : Acts sv (.restore id) s.world _ _ := ⟨.fine, rfl⟩
    exact hedit hop hact
  | erasing a =>
    cases a with
    | run a =>
      obtain ⟨running, hrun, rfl⟩ := Option.map_eq_some_iff.mp h
      refine vouched_of_step ?_ hs hrun
      rintro id filename data request mimeType rfl
      exact hrec id _ rfl
    | deleteDocument id =>
      simp only [archiveStep, ErasingState.step] at h
      split at h
      · split at h
        · obtain rfl := Option.some.inj h
          exact hs
        · cases h
      · cases h
    | eraseDocument fine =>
      obtain ⟨e, he, rfl⟩ := Option.map_eq_some_iff.mp h
      have hw := vouched_of_moves (Eraser.step_moves fine s.world e) hs.world
      dsimp only
      split <;> exact hs.edit hw

/-- The record of a run in which no id is given out twice. -/
theorem recorded_of_receipts {as : List ArchiveAction}
    (hids : ((receipts as).map Prod.fst).Nodup) : ∀ a ∈ as, Recorded (Table.get (receipts as)) a :=
  fun _ ha _ _ hr => (Table.mem_iff_get hids).mp (List.mem_filterMap.mpr ⟨_, ha, hr⟩)

theorem archive_runs_vouched {s t : ErasingState} {as : List ArchiveAction} (hs : s.Fresh)
    (hblank : Blank s.world) (hids : ((receipts as).map Prod.fst).Nodup)
    (h : Runs (archiveStep sv fleet) (fun _ _ => True) s as t) :
    Vouched sv (Table.get (receipts as)) t.world := by
  have hstart : VouchedState sv (Table.get (receipts as)) s.running := by
    refine ⟨.of_blank hs.running.documents hs.running.chunks hblank, ?_, ?_⟩
    · intro id p hp
      rw [hs.running.uploads] at hp
      cases hp
    · intro i item hi
      rw [hs.running.current] at hi
      cases hi
  have hend := h.stable (I := fun u => VouchedState sv (Table.get (receipts as)) u.running)
    (fun a => ¬ Recorded (Table.get (receipts as)) a)
    (fun _ _ _ hu hrec hstep => archive_vouched (not_not.mp hrec) hu hstep) hstart
    fun a ha => not_not.mpr (recorded_of_receipts hids a ha)
  exact hend.world

/-- Nothing is ever in the raw bucket but files that were uploaded and passed validation as what
they were taken for, each under the hash of its content. -/
theorem raw_vouched {s t : ErasingState} {as : List ArchiveAction} (hs : s.Fresh)
    (hblank : Blank s.world) (hids : ((receipts as).map Prod.fst).Nodup)
    (h : Runs (archiveStep sv fleet) (fun _ _ => True) s as t) {key : ObjectKey} {data : Bytes}
    (hdata : t.world.objects .raw key = some data) :
    ∃ id u, (id, u) ∈ receipts as ∧ (u.verdict sv).isValid = true ∧ key = u.rawKey sv ∧
      data = u.data := by
  obtain ⟨id, u, hu, hkey, hvalid, hd⟩ := (archive_runs_vouched hs hblank hids h).raw key data hdata
  exact ⟨id, u, (Table.mem_iff_get hids).mpr hu, hvalid, hkey, hd⟩

/-- What a row leads to in the raw bucket has the hash of what was uploaded under the row's id,
and the row's checksum is that hash too. -/
theorem row_leads_home {s t : ErasingState} {as : List ArchiveAction} (hs : s.Fresh)
    (hblank : Blank s.world) (hids : ((receipts as).map Prod.fst).Nodup)
    (h : Runs (archiveStep sv fleet) (fun _ _ => True) s as t) {id : DocumentId} {row : Document}
    (hrow : t.world.doc id = some row) {key : ObjectKey} {data : Bytes}
    (hkey : row.rawPath = some key) (hdata : t.world.objects .raw key = some data) :
    ∃ u m, (id, u) ∈ receipts as ∧ extensionFor m = extensionFor u.mimeType ∧
      (sv.validateDocument data m).isValid = true ∧
      (sv.validateDocument data m).sha256 = (u.verdict sv).sha256 ∧
      ∀ sha256, row.checksum = some sha256 → sha256 = (sv.validateDocument data m).sha256 := by
  have hv := archive_runs_vouched hs hblank hids h
  obtain ⟨u, hu, ht⟩ := hv.rows id row hrow
  obtain ⟨k, v, -, hvkey, hvalid, rfl⟩ := hv.raw key data hdata
  have hsame : v.rawKey sv = u.rawKey sv := hvkey.symm.trans (ht.rawPath key hkey).1
  simp only [Receipt.rawKey, buildRawKey, ObjectKey.ofContent.injEq] at hsame
  refine ⟨u, v.mimeType, (Table.mem_iff_get hids).mpr hu, hsame.2, hvalid, hsame.1, ?_⟩
  exact fun sha256 hc => (ht.checksum sha256 hc).trans hsame.1.symm

/-- A stored passage is one that the chunker makes of the normalization of an extraction of a
validated upload, one with the hash of what was uploaded under the passage's document. -/
theorem passage_vouched {s t : ErasingState} {as : List ArchiveAction} (hs : s.Fresh)
    (hblank : Blank s.world) (hids : ((receipts as).map Prod.fst).Nodup)
    (h : Runs (archiveStep sv fleet) (fun _ _ => True) s as t) {c : Chunk}
    (hc : c ∈ t.world.chunks) :
    ∃ u v k r, (c.documentId, u) ∈ receipts as ∧ (k, v) ∈ receipts as ∧
      (v.verdict sv).isValid = true ∧ v.rawKey sv = u.rawKey sv ∧
      sv.extract c.documentId v.data u.mimeType = .ok r ∧
      (sv.normalize r).quality.passed = true ∧ c.passage ∈ sv.chunk (sv.normalize r) := by
  obtain ⟨n, ⟨r, ⟨u, v, k, hu, hv, hvalid, hkey, hr⟩, rfl, hpassed⟩, hmem⟩ :=
    (archive_runs_vouched hs hblank hids h).chunks c hc
  exact ⟨u, v, k, r, (Table.mem_iff_get hids).mpr hu, (Table.mem_iff_get hids).mpr hv, hvalid, hkey,
    hr, hpassed, hmem⟩

end Runs

section Examples

/-- A memo on its way to its passages, and then restricted by hand. -/
def memoRun : List ArchiveAction :=
  (beforePersist ++ [RunAction.work 3 .fine]).map (fun a => .erasing (.run a)) ++
    [.reclassify 0 .restricted]

def memoArchive : ErasingState :=
  finalState (archiveStep plainServices plainFleet) freshDeletes memoRun

theorem memo_runs : Runs (archiveStep plainServices plainFleet) (fun _ _ => True) freshDeletes
    memoRun memoArchive := runs_of_exec_free (by decide +kernel)

theorem memo_ids : ((receipts memoRun).map Prod.fst).Nodup := by decide

theorem freshDeletes_blank : Blank freshDeletes.world :=
  ⟨fun _ _ => rfl, fun _ => rfl, fun _ => rfl⟩

theorem memo_raw : memoArchive.world.objects .raw (.ofContent "e3b0" ".pdf") = some [37] := by
  decide +kernel

theorem memo_raw_vouched : ∃ id u, (id, u) ∈ receipts memoRun ∧
    (u.verdict plainServices).isValid = true ∧
    ObjectKey.ofContent "e3b0" ".pdf" = u.rawKey plainServices ∧ [37] = u.data :=
  raw_vouched freshDeletes_fresh freshDeletes_blank memo_ids memo_runs memo_raw

theorem memo_leads_home : ∃ u m, (0, u) ∈ receipts memoRun ∧
    extensionFor m = extensionFor u.mimeType ∧
    (plainServices.validateDocument [37] m).isValid = true ∧
    (plainServices.validateDocument [37] m).sha256 = (u.verdict plainServices).sha256 ∧
    ∀ sha256, some "e3b0" = some sha256 →
      sha256 = (plainServices.validateDocument [37] m).sha256 := by
  have hcolumns : (memoArchive.world.doc 0).map (fun r => (r.rawPath, r.checksum)) =
      some (some (.ofContent "e3b0" ".pdf"), some "e3b0") := by decide +kernel
  obtain ⟨row, hrow, hcol⟩ := Option.map_eq_some_iff.mp hcolumns
  obtain ⟨hpath, hchecksum⟩ := Prod.mk.inj hcol
  rw [← hchecksum]
  exact row_leads_home freshDeletes_fresh freshDeletes_blank memo_ids memo_runs hrow hpath memo_raw

theorem memo_passage_vouched : ∃ c ∈ memoArchive.world.chunks, ∃ u v k r,
    (c.documentId, u) ∈ receipts memoRun ∧ (k, v) ∈ receipts memoRun ∧
    (v.verdict plainServices).isValid = true ∧ v.rawKey plainServices = u.rawKey plainServices ∧
    plainServices.extract c.documentId v.data u.mimeType = .ok r ∧
    (plainServices.normalize r).quality.passed = true ∧
    c.passage ∈ plainServices.chunk (plainServices.normalize r) := by
  have hchunks : memoArchive.world.chunks.map Chunk.documentId = [0] := by decide +kernel
  have hmem : 0 ∈ memoArchive.world.chunks.map Chunk.documentId := by
    rw [hchunks]
    exact List.mem_singleton.mpr rfl
  obtain ⟨c, hc, -⟩ := List.mem_map.mp hmem
  exact ⟨c, hc, passage_vouched freshDeletes_fresh freshDeletes_blank memo_ids memo_runs hc⟩

end Examples

end KnowledgeBase
