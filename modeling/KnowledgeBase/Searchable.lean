import KnowledgeBase.Stranding

/-! LIVE means embedded. The passages are replaced, the vectors written and LIVE set in
three transactions; the property holds in every run in which no passages are replaced
under a document that is LIVE or about to be set so. -/

namespace KnowledgeBase

open Program RunningState Transition

/-- The document has passages, and each of them a vector. -/
def Embedded (w : World) (d : DocumentId) : Prop :=
  (∃ c ∈ w.chunks, c.documentId = d) ∧
    ∀ c ∈ w.chunks, c.documentId = d → c.embedding ≠ none

/-- What a program knows of the passages: as long as those it read are there, they are
all there is. -/
def Knows (w : World) (d : DocumentId) : Vectors → Prop
  | .absent => True
  | .loaded ids => (∀ k ∈ ids, k < w.nextId) ∧
      (∀ c ∈ w.chunks, c.chunkId ∈ ids → c.documentId = d) ∧
      (ids ≠ [] → (∀ k ∈ ids, ∃ c ∈ w.chunks, c.chunkId = k) →
        ∀ c ∈ w.chunks, c.documentId = d → c.chunkId ∈ ids)
  | .written => Embedded w d

/-- The keys of the passages are all different and have all been given out. -/
structure KeysFresh (w : World) : Prop where
  nodup : (w.chunks.map Chunk.chunkId).Nodup
  below : ∀ c ∈ w.chunks, c.chunkId < w.nextId

/-- The vectors of some passages are set; nothing else of them is changed. -/
def Revised (w w' : World) : Prop :=
  ∃ f : Chunk → Chunk, w'.chunks = w.chunks.map f ∧
    ∀ c, (f c).chunkId = c.chunkId ∧ (f c).documentId = c.documentId ∧
      (c.embedding ≠ none → (f c).embedding ≠ none)

/-- The passages of one document are replaced by new ones. -/
def Replaced (w w' : World) (d : DocumentId) : Prop :=
  ∃ passages title, w'.chunks = w.chunks.filter (fun c => c.documentId ≠ d) ++
      w.newChunks d passages title ∧ w'.nextId = w.nextId + passages.length

section Operations

variable {sv : Services} {op : Op} {w w' : World} {r : Except Exn op.Resp} {d : DocumentId}

theorem revised_self (h : w'.chunks = w.chunks) : Revised w w' :=
  ⟨id, by rw [h, List.map_id], fun _ => ⟨rfl, rfl, fun hn => hn⟩⟩

theorem writeEmbeddings_ok {vs : List (ChunkId × EmbeddingVector)}
    (h : w.writeEmbeddings vs = (.ok (), w')) :
    (∀ v ∈ vs, ∃ c ∈ w.chunks, c.chunkId = v.1) ∧
      w'.chunks = w.chunks.map fun c =>
        match Table.get vs c.chunkId with
        | none => c
        | some v => { c with embedding := some v } := by
  unfold World.writeEmbeddings at h
  split at h
  · rename_i hall
    obtain ⟨-, rfl⟩ := Prod.mk.inj h
    exact ⟨hall, rfl⟩
  · cases (Prod.mk.inj h).1

theorem revised_of_writeEmbeddings {vs : List (ChunkId × EmbeddingVector)} :
    Revised w (w.writeEmbeddings vs).2 := by
  unfold World.writeEmbeddings
  split
  · refine ⟨_, rfl, fun c => ?_⟩
    split
    · exact ⟨rfl, rfl, fun hn => hn⟩
    · exact ⟨rfl, rfl, fun _ => Option.some_ne_none _⟩
  · exact revised_self rfl

/-- Everything an operation can do to the passages. -/
theorem chunks_of_acts (h : Acts sv op w r w') : w.nextId ≤ w'.nextId ∧
    (Revised w w' ∨ ∃ id passages title, op = .persistChunks id passages title ∧
      Replaced w w' id) := by
  have hnext := (job_of_acts h).2.1
  refine ⟨hnext, ?_⟩
  by_cases hr : op.row = none
  · obtain ⟨c, hc⟩ := h
    have hw : w' = (effect sv c op w).2 := by rw [hc]
    rw [hw]
    have hcalled : ∀ {u : World}, u.chunks = w.chunks → Revised w (called c w u).2 := by
      intro u hu
      rcases called_snd c w u with he | he <;> rw [he]
      · exact revised_self rfl
      · exact revised_self hu
    cases op
    case create | updateDocument | setClassification | softDelete | restore => cases hr
    case putObject | putExtraction | putNormalization => exact .inl (hcalled rfl)
    case copyObject | deleteObject | embedDocument =>
      simp only [effect]
      split <;> exact .inl (revised_self rfl)
    case audit id event again =>
      have hact : Acts sv (.audit id event again) w r w' := ⟨c, hc⟩
      obtain ⟨-, a, ha⟩ := acts_audit hact
      rw [← hw, ha]
      exact .inl (revised_self rfl)
    case persistChunks id passages title =>
      simp only [effect, World.persistChunks]
      split
      · exact .inl (revised_self rfl)
      · split
        · exact .inr ⟨id, passages, title, rfl, passages, title, rfl, rfl⟩
        · exact .inl (revised_self rfl)
    case writeEmbeddings vs =>
      simp only [effect]
      split
      · exact .inl (revised_self rfl)
      · exact .inl revised_of_writeEmbeddings
    all_goals exact .inl (revised_self rfl)
  · obtain ⟨t, rfl⟩ := acts_of_row h hr
    exact .inl (revised_self rfl)

theorem newChunks_mem {passages : List Passage} {title : String} {c : Chunk}
    (h : c ∈ w.newChunks d passages title) :
    c.documentId = d ∧ w.nextId ≤ c.chunkId ∧ c.chunkId < w.nextId + passages.length := by
  obtain ⟨i, hi, rfl⟩ := List.mem_mapIdx.mp h
  exact ⟨rfl, Nat.le_add_right _ _, Nat.add_lt_add_left hi _⟩

theorem newChunks_nodup (passages : List Passage) (title : String) :
    ((w.newChunks d passages title).map Chunk.chunkId).Nodup := by
  have hids : (w.newChunks d passages title).map Chunk.chunkId =
      (List.range passages.length).map (w.nextId + ·) := by
    apply List.ext_getElem
    · simp [World.newChunks]
    · intro i h1 h2
      simp [World.newChunks]
  rw [hids]
  exact List.nodup_range.map fun _ _ h => Nat.add_left_cancel h

theorem keys_of_acts (h : Acts sv op w r w') (hk : KeysFresh w) : KeysFresh w' := by
  obtain ⟨hle, ⟨f, hf, hsame⟩ | ⟨id, -, -, -, passages, title, hc, hn⟩⟩ := chunks_of_acts h
  · have hids : w'.chunks.map Chunk.chunkId = w.chunks.map Chunk.chunkId := by
      rw [hf, List.map_map]
      exact List.map_congr_left fun c _ => (hsame c).1
    refine ⟨hids ▸ hk.nodup, fun c hcm => ?_⟩
    rw [hf] at hcm
    obtain ⟨c', hc', rfl⟩ := List.mem_map.mp hcm
    rw [(hsame c').1]
    exact Nat.lt_of_lt_of_le (hk.below c' hc') hle
  · constructor
    · rw [hc, List.map_append, List.nodup_append]
      refine ⟨hk.nodup.sublist (List.filter_sublist.map _), newChunks_nodup _ _, ?_⟩
      rintro a ha b hb rfl
      obtain ⟨c, hcm, rfl⟩ := List.mem_map.mp ha
      obtain ⟨c', hcm', he⟩ := List.mem_map.mp hb
      have hlt := hk.below c (List.mem_of_mem_filter hcm)
      have hge := (newChunks_mem hcm').2.1
      rw [he] at hge
      exact absurd hlt (Nat.not_lt.mpr hge)
    · intro c hcm
      rw [hc, List.mem_append] at hcm
      rw [hn]
      rcases hcm with hcm | hcm
      · exact Nat.lt_of_lt_of_le (hk.below c (List.mem_of_mem_filter hcm)) (Nat.le_add_right _ _)
      · exact (newChunks_mem hcm).2.2

theorem embedded_of_revised (h : Revised w w') (he : Embedded w d) : Embedded w' d := by
  obtain ⟨f, hf, hsame⟩ := h
  rw [Embedded, hf]
  obtain ⟨⟨c, hc, hd⟩, hall⟩ := he
  refine ⟨⟨f c, List.mem_map_of_mem hc, (hsame c).2.1.trans hd⟩, fun c' hc' hd' => ?_⟩
  obtain ⟨c₀, hc₀, rfl⟩ := List.mem_map.mp hc'
  exact (hsame c₀).2.2 (hall c₀ hc₀ ((hsame c₀).2.1.symm.trans hd'))

theorem embedded_of_replaced {k : DocumentId} (h : Replaced w w' k) (hk : k ≠ d)
    (he : Embedded w d) : Embedded w' d := by
  obtain ⟨passages, title, hc, -⟩ := h
  rw [Embedded, hc]
  obtain ⟨⟨c, hcm, hd⟩, hall⟩ := he
  constructor
  · refine ⟨c, List.mem_append_left _ (List.mem_filter.mpr ⟨hcm, ?_⟩), hd⟩
    simpa using fun hkd => hk (hkd.symm.trans hd)
  · intro c' hc' hd'
    rcases List.mem_append.mp hc' with hm | hm
    · exact hall c' (List.mem_of_mem_filter hm) hd'
    · exact absurd ((newChunks_mem hm).1.symm.trans hd') hk

theorem knows_of_revised {x : Vectors} (hle : w.nextId ≤ w'.nextId) (hrev : Revised w w')
    (hx : Knows w d x) : Knows w' d x := by
  cases x with
  | absent => trivial
  | written => exact embedded_of_revised hrev hx
  | loaded ids =>
    obtain ⟨f, hf, hsame⟩ := hrev
    obtain ⟨hlt, hdoc, hall⟩ := hx
    refine ⟨fun k hk => Nat.lt_of_lt_of_le (hlt k hk) hle, ?_, ?_⟩
    · intro c hc hid
      rw [hf] at hc
      obtain ⟨c₀, hc₀, rfl⟩ := List.mem_map.mp hc
      rw [(hsame c₀).1] at hid
      exact (hsame c₀).2.1.trans (hdoc c₀ hc₀ hid)
    · intro hne hthere c hc hd
      rw [hf] at hc
      obtain ⟨c₀, hc₀, rfl⟩ := List.mem_map.mp hc
      rw [(hsame c₀).1]
      refine hall hne (fun k hk => ?_) c₀ hc₀ ((hsame c₀).2.1.symm.trans hd)
      obtain ⟨c₁, hc₁, hid⟩ := hthere k hk
      rw [hf] at hc₁
      obtain ⟨c₂, hc₂, rfl⟩ := List.mem_map.mp hc₁
      exact ⟨c₂, hc₂, (hsame c₂).1.symm.trans hid⟩

/-- What a program knows stays true, unless it has written the vectors and the passages
are replaced before it sets LIVE. -/
theorem knows_of_acts (h : Acts sv op w r w') {x : Vectors} (hx : Knows w d x)
    (hno : x = .written → ∀ passages title, op ≠ .persistChunks d passages title) :
    Knows w' d x := by
  obtain ⟨hle, hrev | ⟨id, ps, ti, rfl, hrep⟩⟩ := chunks_of_acts h
  · exact knows_of_revised hle hrev hx
  · cases x with
    | absent => trivial
    | written => exact embedded_of_replaced hrep (fun hid => hno rfl ps ti (by rw [hid])) hx
    | loaded ids =>
      obtain ⟨passages, title, hc, -⟩ := hrep
      obtain ⟨hlt, hdoc, hall⟩ := hx
      -- the key of a passage that is there and was read is one from before
      have hold : ∀ c ∈ w'.chunks, c.chunkId ∈ ids → c ∈ w.chunks ∧ c.documentId ≠ id := by
        intro c hcm hid
        rw [hc] at hcm
        rcases List.mem_append.mp hcm with hm | hm
        · exact ⟨List.mem_of_mem_filter hm, by simpa using List.of_mem_filter hm⟩
        · exact absurd (hlt _ hid) (Nat.not_lt.mpr (newChunks_mem hm).2.1)
      refine ⟨fun k hk => Nat.lt_of_lt_of_le (hlt k hk) hle,
        fun c hcm hid => hdoc c (hold c hcm hid).1 hid, ?_⟩
      intro hne hthere c hcm hd
      obtain ⟨k, hk⟩ := List.exists_mem_of_ne_nil ids hne
      obtain ⟨c₁, hc₁, hid₁⟩ := hthere k hk
      obtain ⟨hm₁, hne₁⟩ := hold c₁ hc₁ (hid₁ ▸ hk)
      have hdd : d ≠ id := by rw [← hdoc c₁ hm₁ (hid₁ ▸ hk)]; exact hne₁
      rw [hc] at hcm
      rcases List.mem_append.mp hcm with hm | hm
      · refine hall hne (fun k hk => ?_) c (List.mem_of_mem_filter hm) hd
        obtain ⟨c₂, hc₂, hid₂⟩ := hthere k hk
        exact ⟨c₂, (hold c₂ hc₂ (hid₂ ▸ hk)).1, hid₂⟩
      · exact absurd (hd.symm.trans (newChunks_mem hm).1) hdd

theorem mem_chunksOf {c : Chunk} : c ∈ w.chunksOf d ↔ c ∈ w.chunks ∧ c.documentId = d := by
  simp [World.chunksOf]

theorem knows_of_load (hk : KeysFresh w) : Knows w d (.loaded ((w.chunksOf d).map Chunk.chunkId)) := by
  refine ⟨?_, ?_, ?_⟩
  · intro k hkm
    obtain ⟨c, hc, rfl⟩ := List.mem_map.mp hkm
    exact hk.below c (mem_chunksOf.mp hc).1
  · intro c hc hid
    obtain ⟨c', hc', he⟩ := List.mem_map.mp hid
    obtain ⟨hm, hd⟩ := mem_chunksOf.mp hc'
    rw [← List.inj_on_of_nodup_map hk.nodup hm hc he]
    exact hd
  · intro _ _ c hc hd
    exact List.mem_map_of_mem (mem_chunksOf.mpr ⟨hc, hd⟩)

theorem get_of_mem_keys {vs : List (ChunkId × EmbeddingVector)} {k : ChunkId}
    (h : k ∈ vs.map Prod.fst) : ∃ v, Table.get vs k = some v := by
  cases hg : Table.lookup Prod.fst vs k with
  | some p => exact ⟨p.2, by rw [Table.get, hg]; rfl⟩
  | none =>
    obtain ⟨p, hp, he⟩ := List.mem_map.mp h
    exact absurd he (Table.lookup_eq_none_iff.mp hg p hp)

/-- The vectors have gone to all passages there are. -/
theorem knows_of_write {vs : List (ChunkId × EmbeddingVector)} (hne : vs ≠ [])
    (hx : Knows w d (.loaded (vs.map Prod.fst))) (h : w.writeEmbeddings vs = (.ok (), w')) :
    Embedded w' d := by
  obtain ⟨-, hdoc, hall⟩ := hx
  obtain ⟨hthere, hc⟩ := writeEmbeddings_ok h
  have hthere' : ∀ k ∈ vs.map Prod.fst, ∃ c ∈ w.chunks, c.chunkId = k := by
    intro k hk
    obtain ⟨v, hv, rfl⟩ := List.mem_map.mp hk
    exact hthere v hv
  rw [Embedded, hc]
  constructor
  · obtain ⟨v, hv⟩ := List.exists_mem_of_ne_nil vs hne
    obtain ⟨c, hcm, hid⟩ := hthere v hv
    refine ⟨_, List.mem_map_of_mem hcm, ?_⟩
    have hd := hdoc c hcm (hid ▸ List.mem_map_of_mem hv)
    split <;> exact hd
  · intro c hcm hd
    obtain ⟨c₀, hc₀, rfl⟩ := List.mem_map.mp hcm
    have hd₀ : c₀.documentId = d := by
      rw [← hd]
      split <;> rfl
    have hk := hall (fun he => hne (List.map_eq_nil_iff.mp he)) hthere' c₀ hc₀ hd₀
    obtain ⟨v, hv⟩ := get_of_mem_keys hk
    simp [hv]

/-- LIVE is new only from a program that has written the vectors. -/
theorem live_of_acts {x : Conduct} (hop : (conduct sv d).allowed x op) (h : Acts sv op w r w')
    {k : DocumentId} {row' : Document} (hk : w'.doc k = some row') (hlive : row'.status = .live) :
    (∃ row, w.doc k = some row ∧ row.status = .live) ∨
      k = d ∧ x.vectors = .written ∧ op.row ≠ none := by
  by_cases hr : op.row = none
  · exact .inl ⟨row', by rw [← hk, World.doc, World.doc, documents_of_acts h hr], hlive⟩
  · cases op
    case create doc =>
      rcases acts_create.mp h with ⟨-, -, rfl⟩ | ⟨t, ht, -, rfl⟩
      · exact .inl ⟨row', hk, hlive⟩
      · by_cases hid : doc.id = k
        · subst hid
          have hrow : row' = doc.created := Documents.insert_get_eq ht hk
          rw [hrow] at hlive
          exact absurd hlive hop.2.1
        · have hk' : t.get k = some row' := hk
          rw [Documents.insert_get ht, Document.created, if_neg hid, Option.or_none] at hk'
          exact .inl ⟨row', hk', hlive⟩
    case updateDocument doc =>
      rcases acts_updateDocument.mp h with ⟨-, -, rfl⟩ | ⟨t, ht, -, rfl⟩
      · exact .inl ⟨row', hk, hlive⟩
      · by_cases hid : k = doc.id
        · subst hid
          obtain ⟨⟨row, -, hv⟩, -, hset⟩ := hop
          have hs := (Documents.updateDocument_get_eq ht hk).1.symm.trans hlive
          exact .inr ⟨hv.id, hset.mp hs, hr⟩
        · exact .inl ⟨row', (Documents.updateDocument_get_other ht hid).symm.trans hk, hlive⟩
    case setClassification id tier =>
      obtain ⟨-, rfl⟩ := acts_setClassification.mp h
      obtain ⟨q, hq, hs, -, -⟩ := setClassification_get hk
      exact .inl ⟨q, hq, hs.symm.trans hlive⟩
    case softDelete => exact absurd hop id
    case restore => exact absurd hop id
    all_goals exact absurd rfl hr

/-- The operation of a program, and what it knows after it. -/
theorem vectors_step {x : Conduct} (h : Acts sv op w r w') (hop : (conduct sv d).allowed x op)
    (hkn : Knows w d x.vectors) (hk : KeysFresh w) :
    Knows w' d ((conduct sv d).next x op r).vectors := by
  have hsame : op.writesChunks = false ∨ x.vectors ≠ .written → Knows w' d x.vectors := by
    intro hno
    refine knows_of_acts h hkn fun hw passages title he => ?_
    subst he
    exact hop hw
  cases op
  case updateDocument doc => cases r <;> trivial
  case create doc => cases r <;> exact hsame (.inl rfl)
  case setClassification => exact hsame (.inl rfl)
  case softDelete => exact hop.elim
  case restore => exact hop.elim
  case getById id =>
    have hx := hsame (.inl rfl)
    rcases r with e | row
    · exact hx
    · cases row with
      | none => exact hx
      | some row =>
        show Knows w' d (if id = d then _ else _ : Conduct).vectors
        split <;> exact hx
  case enqueue id stage =>
    have hx := hsame (.inl rfl)
    cases r with
    | error e => exact hx
    | ok _ =>
      show Knows w' d (if _ then _ else _ : Conduct).vectors
      split <;> exact hx
  case loadChunks id =>
    obtain ⟨c, hc⟩ := h
    obtain ⟨rfl, rfl⟩ := Prod.mk.inj hc
    show Knows w d (if id = d then _ else _ : Conduct).vectors
    split
    · rename_i hid
      subst hid
      exact knows_of_load hk
    · exact hkn
  case writeEmbeddings vs =>
    have hx := hsame (.inr hop)
    cases r with
    | error e => exact hx
    | ok a =>
      show Knows w' d (if _ then _ else _ : Conduct).vectors
      split
      · rename_i hwr
        obtain ⟨c, hc⟩ := h
        rw [hwr.1] at hkn
        simp only [effect] at hc
        split at hc
        · cases (Prod.mk.inj hc).1
        · exact knows_of_write hwr.2 hkn hc
      · exact hx
  all_goals exact hsame (.inr hop)

theorem written_next {α : Type} {p : Stage α} {x : Conduct} (hx : x.vectors = .written)
    (h : Conducts sv d x p) :
    ∃ doc next, p = .call (.updateDocument doc) next ∧ doc.id = d ∧ doc.status = .live := by
  cases p with
  | ret a => exact absurd hx h.2
  | raise e => exact absurd hx h.2
  | call op next =>
    have hop := h.1
    cases op
    case updateDocument doc =>
      obtain ⟨⟨row, -, hv⟩, -, hset⟩ := hop
      exact ⟨doc, next, rfl, hv.id, hset.mpr hx⟩
    case create => exact absurd hx hop.2.2
    case setClassification | getById => exact absurd hx hop.2
    case softDelete => exact hop.elim
    case restore => exact hop.elim
    all_goals exact absurd hx hop

/-- An upload has no part in the passages. -/
def Uploads (d : DocumentId) : Op → Prop
  | .create doc => doc.id = d ∧ doc.status ≠ .live
  | .enqueue k _ => k = d
  | .putObject _ _ _ | .audit _ _ _ => True
  | _ => False

theorem receive_uploads (d : DocumentId) (filename : String) (data : Bytes)
    (request : UploadRequest) (mimeType : String) :
    (UploadService.receive d filename data request mimeType).Sends (Uploads d)
      (fun _ _ => True) := by
  refine sends_bind (sends_perform trivial) fun _ => ?_
  refine sends_bind (sends_perform ⟨rfl, nofun⟩) fun _ => ?_
  refine sends_bind (sends_perform rfl) fun _ => ?_
  exact sends_bind (sends_perform trivial) fun _ => trivial

theorem conduct_of_uploads (h : Uploads d op) : (conduct sv d).allowed .fresh op := by
  cases op
  case create => exact ⟨h.1, h.2, nofun⟩
  case putObject | enqueue | audit => exact nofun
  all_goals exact h.elim

end Operations

section Runs

variable {sv : Services} {fleet : Fleet} {s t : RunningState}

structure VectorInv (sv : Services) (s : RunningState) : Prop where
  keys : KeysFresh s.world
  workers : ∀ i item, s.current i = some item →
    ∃ x, Conducts sv item.documentId x (s.rest i) ∧ Knows s.world item.documentId x.vectors
  uploads : ∀ d p, s.uploads d = some p → p.Sends (Uploads d) (fun _ _ => True)
  live : ∀ d row, s.world.doc d = some row → row.status = .live → Embedded s.world d

/-- The condition on a step: no passages are replaced under a document that is LIVE, or
that another worker sets LIVE with its next operation. -/
def KeepsVectors (s : RunningState) : RunAction → Prop
  | .work i _ => ∀ d passages title next, s.rest i = .call (.persistChunks d passages title) next →
      (∀ row, s.world.doc d = some row → row.status ≠ .live) ∧
      ∀ j item doc next', s.current j = some item →
        s.rest j = .call (.updateDocument doc) next' → doc.id = d → doc.status ≠ .live
  | _ => True

/-- A step of one program, as the others and the LIVE documents see it. -/
theorem inv_of_operation {w' : World} {op : Op} {r : Except Exn op.Resp} {d : DocumentId}
    {x : Conduct} (hs : VectorInv sv s) (hop : (conduct sv d).allowed x op)
    (hkn : Knows s.world d x.vectors) (h : Acts sv op s.world r w')
    (hok : ∀ k passages title, op = .persistChunks k passages title →
      (∀ row, s.world.doc k = some row → row.status ≠ .live) ∧
      ∀ j item doc next', s.current j = some item →
        s.rest j = .call (.updateDocument doc) next' → doc.id = k → doc.status ≠ .live) :
    KeysFresh w' ∧
      (∀ i item, s.current i = some item →
        ∃ x, Conducts sv item.documentId x (s.rest i) ∧ Knows w' item.documentId x.vectors) ∧
      ∀ k row, w'.doc k = some row → row.status = .live → Embedded w' k := by
  refine ⟨keys_of_acts h hs.keys, ?_, ?_⟩
  · intro i item hi
    obtain ⟨y, hy, hk⟩ := hs.workers i item hi
    refine ⟨y, hy, knows_of_acts h hk ?_⟩
    intro hwr passages title he
    obtain ⟨doc, next', hrest, hid, hlive⟩ := written_next hwr hy
    exact (hok _ passages title he).2 i item doc next' hi hrest hid hlive
  · intro k row' hrow' hlive
    rcases live_of_acts hop h hrow' hlive with ⟨row, hrow, hl⟩ | ⟨rfl, hwr, hr⟩
    · rcases (chunks_of_acts h).2 with hrev | ⟨id, passages, title, he, hrep⟩
      · exact embedded_of_revised hrev (hs.live k row hrow hl)
      · refine embedded_of_replaced hrep ?_ (hs.live k row hrow hl)
        rintro rfl
        exact (hok id passages title he).1 row hrow hl
    · rw [hwr] at hkn
      refine knows_of_acts (x := .written) h hkn fun _ passages title he => ?_
      subst he
      exact hr rfl

theorem vectorInv_of_step {a : RunAction} (hs : VectorInv sv s) (hok : KeepsVectors s a)
    (h : s.step sv fleet a = some t) : VectorInv sv t := by
  cases step_cases h with
  | receive id filename data request mimeType hfree =>
    refine ⟨hs.keys, hs.workers, ?_, hs.live⟩
    intro d p hp
    by_cases hd : d = id
    · subst hd
      have hp' : _ = some p := (Function.update_self _ _ s.uploads).symm.trans hp
      obtain rfl := Option.some.inj hp'
      exact receive_uploads _ _ _ _ _
    · exact hs.uploads d p ((Function.update_of_ne hd _ s.uploads).symm.trans hp)
  | upload id luck p q w hp hstep =>
    obtain ⟨op, next, rfl, rfl, rfl⟩ := Program.step_cases hstep
    have hsends := hs.uploads id _ hp
    have hact : Acts sv op s.world _ _ := ⟨luck, rfl⟩
    obtain ⟨hkeys, hworkers, hlive⟩ := inv_of_operation (x := .fresh) hs
      (conduct_of_uploads hsends.1) trivial hact
      (by rintro k passages title rfl; exact hsends.1.elim)
    refine ⟨hkeys, hworkers, ?_, hlive⟩
    intro d p' hp'
    by_cases hd : d = id
    · subst hd
      have hp'' : _ = some p' := (Function.update_self _ _ s.uploads).symm.trans hp'
      obtain rfl := Option.some.inj hp''
      exact hsends.2 _ trivial
    · exact hs.uploads d p' ((Function.update_of_ne hd _ s.uploads).symm.trans hp')
  | endUpload id =>
    refine ⟨hs.keys, hs.workers, ?_, hs.live⟩
    intro d p hp
    by_cases hd : d = id
    · subst hd
      cases (Function.update_self _ _ s.uploads).symm.trans hp
    · exact hs.uploads d p ((Function.update_of_ne hd _ s.uploads).symm.trans hp)
  | work i luck item q w hi hstep =>
    obtain ⟨op, next, hrest, rfl, rfl⟩ := Program.step_cases hstep
    obtain ⟨x, hx, hkn⟩ := hs.workers i item hi
    rw [hrest] at hx
    have hact : Acts sv op s.world _ _ := ⟨luck, rfl⟩
    obtain ⟨hkeys, hworkers, hlive⟩ := inv_of_operation hs hx.1 hkn hact
      (by rintro k passages title rfl; exact hok k passages title next hrest)
    refine ⟨hkeys, ?_, hs.uploads, hlive⟩
    intro j item' hj
    by_cases hij : j = i
    · subst hij
      obtain rfl := Option.some.inj (hi.symm.trans hj)
      refine ⟨_, ?_, vectors_step hact hx.1 hkn hs.keys⟩
      show Conducts sv _ _ (Function.update s.rest j _ j)
      rw [Function.update_self]
      exact hx.2 _ ⟨_, _, hact⟩
    · obtain ⟨y, hy, hky⟩ := hworkers j item' hj
      refine ⟨y, ?_, hky⟩
      show Conducts sv _ y (Function.update s.rest i _ j)
      rw [Function.update_of_ne hij]
      exact hy
  | queue _ act q hact hstep =>
    have hrev : Revised s.world (s.withQueue q).world := revised_self rfl
    refine ⟨⟨hs.keys.nodup, hs.keys.below⟩, ?_, hs.uploads,
      fun d row hrow hl => embedded_of_revised hrev (hs.live d row hrow hl)⟩
    intro i item hi
    show ∃ x, Conducts sv item.documentId x (s.started sv a q i) ∧ _
    rcases queue_current (queue_cases hact) hstep hi with ⟨hc, hrest⟩ | ⟨w, row, -, rfl, hrest⟩
    · rw [hrest]
      obtain ⟨x, hx, hkn⟩ := hs.workers i item hc
      exact ⟨x, hx, knows_of_revised (Nat.le_refl _) hrev hkn⟩
    · rw [hrest]
      exact ⟨.fresh, processJob_conducts row.stage row.documentId, trivial⟩

theorem vectorInv_of_fresh (h : s.Fresh) : VectorInv sv s where
  keys := by
    constructor
    · rw [h.chunks]
      exact List.nodup_nil
    · intro c hc
      rw [h.chunks] at hc
      cases hc
  workers := by
    intro i item hi
    rw [h.current] at hi
    cases hi
  uploads := by
    intro d p hp
    rw [h.uploads] at hp
    cases hp
  live := by
    intro d row hrow
    have hmem := Documents.mem_of_get hrow
    rw [h.documents] at hmem
    cases hmem

end Runs

/-- Every document that is LIVE has passages, all of them embedded. -/
def LiveMeansEmbedded (s : RunningState) : Prop :=
  ∀ d row, s.world.doc d = some row → row.status = .live → Embedded s.world d

/-- LIVE means embedded in every run that keeps the vectors of LIVE documents. -/
theorem live_embedded {sv : Services} {fleet : Fleet} {s t : RunningState} {as : List RunAction}
    (hs : s.Fresh) (h : Runs (step sv fleet) KeepsVectors s as t) : LiveMeansEmbedded t := by
  have hinit : VectorInv sv s := vectorInv_of_fresh hs
  have hinv : VectorInv sv t :=
    h.invariant (fun _ _ _ hi hok hstep => vectorInv_of_step hi hok hstep) hinit
  exact hinv.live

/-- A job from its pick to its end. -/
def jobRun (i : WorkerId) (j : JobId) (operations : Nat) : List RunAction :=
  .pickJob i j :: List.replicate operations (.work i .fine) ++ [.finishJob i]

/-- A document up to the chunking, whose program stands before the write of the passages. -/
def beforePersist : List RunAction :=
  uploadRun ++ jobRun 0 0 10 ++ jobRun 1 1 6 ++ jobRun 2 2 6 ++
    [.pickJob 3 3, .work 3 .fine, .work 3 .fine]

def afterPersist : List RunAction :=
  List.replicate 3 (.work 3 .fine) ++ [.finishJob 3] ++ jobRun 4 5 7

/-- The worker stalls past its lease and another one takes the job; the document is LIVE
when the first one wakes and writes its passages. -/
def staleRun : List RunAction :=
  beforePersist ++ [.tick 61, .reapStuckJobs 0, .tick 5] ++ jobRun 8 3 6 ++ jobRun 4 5 7 ++
    [.work 3 .fine]

/-- The action replaces no passages. -/
def leavesPassages (s : RunningState) : RunAction → Bool
  | .work i _ =>
    match s.rest i with
    | .call (.persistChunks _ _ _) _ => false
    | _ => true
  | _ => true

theorem keeps_of_leavesPassages (s : RunningState) (a : RunAction)
    (h : leavesPassages s a = true) : KeepsVectors s a := by
  cases a with
  | work i luck =>
    intro d passages title next hrest
    simp only [leavesPassages, hrest] at h
    cases h
  | _ => trivial

/-- Before the write of the passages nobody else is at work. -/
theorem persist_keeps : KeepsVectors (ranTo beforePersist) (.work 3 .fine) := by
  intro d passages title next hrest
  have hnext : ∃ ps ti next, (ranTo beforePersist).rest 3 = .call (.persistChunks 0 ps ti) next :=
    ⟨_, _, _, rfl⟩
  obtain ⟨ps, ti, next', hn⟩ := hnext
  rw [hn] at hrest
  obtain ⟨rfl, rfl, rfl⟩ := Op.persistChunks.inj (Program.call.inj hrest).1
  constructor
  · intro row hrow hlive
    have hst : ((ranTo beforePersist).world.doc 0).map Document.status =
        some .awaitingClassification := by decide +kernel
    rw [hrow, Option.map_some, hlive] at hst
    cases hst
  · intro j item doc next'' hj hrest' _
    by_cases h3 : j = 3
    · rw [h3, hn] at hrest'
      cases (Program.call.inj hrest').1
    · have hcur : ∃ a b c x, (ranTo beforePersist).current = Function.update (Function.update
          (Function.update (Function.update (Function.update (Function.update (Function.update
            (fun _ => none) 0 (some a)) 0 none) 1 (some b)) 1 none) 2 (some c)) 2 none) 3
              (some x) := ⟨_, _, _, _, rfl⟩
      obtain ⟨a, b, c, x, hcur⟩ := hcur
      rw [hcur] at hj
      simp [h3] at hj

theorem embedded_document_is_live : LiveMeansEmbedded
    (finalState (step plainServices plainFleet) (ranTo (beforePersist ++ [.work 3 .fine]))
      afterPersist) := by
  have hbefore : Runs (step plainServices plainFleet) KeepsVectors freshState beforePersist
      (ranTo beforePersist) :=
    runs_of_exec leavesPassages keeps_of_leavesPassages (by decide +kernel)
  have hpersist : Runs (step plainServices plainFleet) KeepsVectors (ranTo beforePersist)
      [.work 3 .fine] (ranTo (beforePersist ++ [.work 3 .fine])) := Runs.single persist_keeps rfl
  have hafter := runs_of_exec leavesPassages keeps_of_leavesPassages
    (show (exec (guarded (step plainServices plainFleet) leavesPassages)
      (ranTo (beforePersist ++ [.work 3 .fine])) afterPersist).isSome = true by decide +kernel)
  exact live_embedded freshState_fresh ((hbefore.append hpersist).append hafter)

/-- A chunking run that lost its lease replaces the passages of a document that is LIVE
by passages with no vectors. -/
theorem stale_chunking_empties_live_document : ¬ ∀ (sv : Services) (fleet : Fleet)
    (s t : RunningState) (as : List RunAction), s.Fresh →
    Runs (step sv fleet) (fun _ _ => True) s as t → LiveMeansEmbedded t := by
  intro h
  have hrun : Runs (step plainServices plainFleet) (fun _ _ => True) freshState staleRun
      (ranTo staleRun) := runs_of_exec_free (by decide +kernel)
  have hst : ((ranTo staleRun).world.doc 0).map Document.status = some .live := by
    decide +kernel
  obtain ⟨row, hrow, hlive⟩ := Option.map_eq_some_iff.mp hst
  obtain ⟨⟨c, hc, hd⟩, hall⟩ := h _ _ _ _ _ freshState_fresh hrun 0 row hrow hlive
  have hnone : (ranTo staleRun).world.chunks.map Chunk.embedding = [none] := by decide +kernel
  have hmem : c.embedding ∈ (ranTo staleRun).world.chunks.map Chunk.embedding :=
    List.mem_map_of_mem hc
  rw [hnone, List.mem_singleton] at hmem
  exact hall c hc hd hmem

end KnowledgeBase
