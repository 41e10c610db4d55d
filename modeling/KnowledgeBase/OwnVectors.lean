import KnowledgeBase.Origins

/-! Whose vector a passage carries: its own, whoever stalls and wakes between the reading of the
passages, the inference and the write. -/

namespace KnowledgeBase

open Program RunningState Transition

/-- How far a program has come with the vectors of its document. -/
inductive Reading where
  | nothing
  | read (chunks : List Chunk)
  | made (chunks : List Chunk) (result : EmbeddingResult)

/-- The vector that the model gives for this text, among the texts it is given with. -/
def VectorOf (sv : Services) (d : DocumentId) (text : String) (v : EmbeddingVector) : Prop :=
  ∃ (texts : List String) (result : EmbeddingResult) (i : Nat),
    sv.embedDocument d texts = .ok result ∧ result.vectors.length = texts.length ∧
      texts[i]? = some text ∧ result.vectors[i]? = some v

/-- Every vector is that of the text beside it. -/
def OwnVectors (sv : Services) (w : World) : Prop :=
  ∀ c ∈ w.chunks, ∀ v, c.embedding = some v → VectorOf sv c.documentId c.passage.text v

/-- The program of an embedding writes the vectors it has made, to the passages it has read. -/
def vectoring (sv : Services) (d : DocumentId) : Discipline Op Op.Resp Exn Reading where
  allowed x op :=
    match op with
    | .writeEmbeddings vs => ∃ chunks result, x = .made chunks result ∧
        result.vectors.length = chunks.length ∧
        vs = (chunks.map Chunk.chunkId).zip result.vectors
    | _ => True
  expected _ op r := Possible sv op r
  next x op r :=
    match op, r, x with
    | .loadChunks id, .ok chunks, x => if id = d then .read chunks else x
    | .embedDocument id texts, .ok result, .read chunks =>
      if id = d ∧ texts = chunks.map (fun c => c.passage.text) then .made chunks result
      else .read chunks
    | _, _, x => x

/-- A passage with the key of one that was read is that one. -/
def Recalls (w : World) (d : DocumentId) (chunks : List Chunk) : Prop :=
  ∀ c₀ ∈ chunks, c₀.chunkId < w.nextId ∧
    ∀ c ∈ w.chunks, c.chunkId = c₀.chunkId → c.documentId = d ∧ c.passage = c₀.passage

def Reading.Holds (sv : Services) (w : World) (d : DocumentId) : Reading → Prop
  | .nothing => True
  | .read chunks => Recalls w d chunks
  | .made chunks result => Recalls w d chunks ∧
      sv.embedDocument d (chunks.map fun c => c.passage.text) = .ok result

variable {sv : Services} {op : Op} {w w' : World} {r : Except Exn op.Resp} {d : DocumentId}

section Operations

theorem mem_of_get {vs : List (ChunkId × EmbeddingVector)} {k : ChunkId} {v : EmbeddingVector}
    (h : Table.get vs k = some v) : (k, v) ∈ vs := by
  obtain ⟨p, hp, rfl⟩ := Option.map_eq_some_iff.mp h
  rw [← Table.key_of_lookup hp]
  exact Table.mem_of_lookup hp

theorem chunks_kept (hop : op.writesChunks = false) (h : Acts sv op w r w') :
    w'.chunks = w.chunks := by
  by_cases hrow : op.row = none
  · obtain ⟨c, hc⟩ := h
    have hw : w' = (effect sv c op w).2 := by rw [hc]
    have hcalled : ∀ {u : World}, u.chunks = w.chunks → (called c w u).2.chunks = w.chunks := by
      intro u hu
      rcases called_snd c w u with he | he <;> rw [he]
      exact hu
    rw [hw]
    cases op
    case create | updateDocument | setClassification | softDelete | restore => cases hrow
    case persistChunks | writeEmbeddings => cases hop
    case putObject | putExtraction | putNormalization => exact hcalled rfl
    case copyObject | deleteObject | embedDocument =>
      simp only [effect]
      split <;> rfl
    case audit id event again =>
      have hact : Acts sv (.audit id event again) w r w' := ⟨c, hc⟩
      obtain ⟨-, a, ha⟩ := acts_audit hact
      rw [← hw, ha]
    all_goals rfl
  · obtain ⟨t, rfl⟩ := acts_of_row h hrow
    rfl

/-- A passage that is there after an operation is new and has no vector, or it was there before
and has the vector it had, or one that was written to it. -/
theorem chunk_of_acts (h : Acts sv op w r w') {c : Chunk} (hc : c ∈ w'.chunks) :
    (w.nextId ≤ c.chunkId ∧ c.embedding = none) ∨
      ∃ c₀ ∈ w.chunks, c.chunkId = c₀.chunkId ∧ c.documentId = c₀.documentId ∧
        c.passage = c₀.passage ∧ (c.embedding = c₀.embedding ∨
          ∃ vs v, op = .writeEmbeddings vs ∧ (c.chunkId, v) ∈ vs ∧ c.embedding = some v) := by
  by_cases hop : op.writesChunks = false
  · rw [chunks_kept hop h] at hc
    exact .inr ⟨c, hc, rfl, rfl, rfl, .inl rfl⟩
  · obtain ⟨luck, hl⟩ := h
    have hw : w' = (effect sv luck op w).2 := by rw [hl]
    cases op
    case persistChunks id passages title =>
      simp only [hw, effect] at hc
      split at hc
      · exact .inr ⟨c, hc, rfl, rfl, rfl, .inl rfl⟩
      · unfold World.persistChunks at hc
        split at hc
        · rcases List.mem_append.mp hc with hc | hc
          · exact .inr ⟨c, (List.mem_filter.mp hc).1, rfl, rfl, rfl, .inl rfl⟩
          · obtain ⟨i, hi, rfl⟩ := List.mem_mapIdx.mp hc
            exact .inl ⟨Nat.le_add_right _ _, rfl⟩
        · exact .inr ⟨c, hc, rfl, rfl, rfl, .inl rfl⟩
    case writeEmbeddings vs =>
      simp only [hw, effect] at hc
      split at hc
      · exact .inr ⟨c, hc, rfl, rfl, rfl, .inl rfl⟩
      · unfold World.writeEmbeddings at hc
        split at hc
        · obtain ⟨c₀, hc₀, rfl⟩ := List.mem_map.mp hc
          refine .inr ⟨c₀, hc₀, ?_⟩
          split
          · exact ⟨rfl, rfl, rfl, .inl rfl⟩
          · rename_i v hv
            exact ⟨rfl, rfl, rfl, .inr ⟨vs, v, rfl, mem_of_get hv, rfl⟩⟩
        · exact .inr ⟨c, hc, rfl, rfl, rfl, .inl rfl⟩
    all_goals exact absurd rfl hop

theorem Recalls.acts {chunks : List Chunk} (hr : Recalls w d chunks) (h : Acts sv op w r w') :
    Recalls w' d chunks := by
  intro c₀ hc₀
  obtain ⟨hlt, hsame⟩ := hr c₀ hc₀
  refine ⟨Nat.lt_of_lt_of_le hlt (chunks_of_acts h).1, fun c hc hid => ?_⟩
  rcases chunk_of_acts h hc with ⟨hnew, -⟩ | ⟨c₁, hc₁, hid₁, hdoc, hpassage, -⟩
  · rw [hid] at hnew
    exact absurd hlt (Nat.not_lt.mpr hnew)
  · rw [hdoc, hpassage]
    exact hsame c₁ hc₁ (hid₁.symm.trans hid)

theorem recalls_loaded (hk : KeysFresh w) : Recalls w d (w.chunksOf d) := by
  intro c₀ hc₀
  obtain ⟨hm, hd⟩ := mem_chunksOf.mp hc₀
  refine ⟨hk.below c₀ hm, fun c hc hid => ?_⟩
  obtain rfl := List.inj_on_of_nodup_map hk.nodup hc hm hid
  exact ⟨hd, rfl⟩

theorem Reading.Holds.acts {x : Reading} (hx : x.Holds sv w d) (h : Acts sv op w r w') :
    x.Holds sv w' d := by
  cases x with
  | nothing => trivial
  | read chunks => exact Recalls.acts hx h
  | made chunks result => exact ⟨hx.1.acts h, hx.2⟩

/-- What the program knows after one more operation. -/
theorem reading_step {x : Reading} (h : Acts sv op w r w') (hk : KeysFresh w)
    (hx : x.Holds sv w d) : ((vectoring sv d).next x op r).Holds sv w' d := by
  have hsame : x.Holds sv w' d := hx.acts h
  cases op
  case loadChunks id =>
    obtain ⟨c, hc⟩ := h
    obtain ⟨rfl, rfl⟩ := Prod.mk.inj hc
    show Reading.Holds sv w d (if id = d then _ else _)
    split
    · rename_i hid
      subst hid
      exact recalls_loaded hk
    · exact hx
  case embedDocument id texts =>
    cases r with
    | error e => exact hsame
    | ok result =>
      cases x with
      | nothing | made => exact hsame
      | read chunks =>
        show Reading.Holds sv w' d (if _ then _ else _)
        split
        · rename_i hit
          obtain ⟨rfl, rfl⟩ := hit
          refine ⟨hsame, ?_⟩
          obtain ⟨c, hc⟩ := h
          simp only [effect] at hc
          split at hc
          · cases (Prod.mk.inj hc).1
          · exact (Prod.mk.inj hc).1
        · exact hsame
  all_goals exact hsame

/-- Vectors that are written go to the texts they were made of. -/
theorem ownVectors_step {x : Reading} (hop : (vectoring sv d).allowed x op)
    (h : Acts sv op w r w') (hx : x.Holds sv w d) (hw : OwnVectors sv w) : OwnVectors sv w' := by
  intro c hc v hv
  rcases chunk_of_acts h hc with ⟨-, hnone⟩ | ⟨c₀, hc₀, hid, hdoc, hpassage, he | hwritten⟩
  · rw [hnone] at hv
    cases hv
  · rw [hdoc, hpassage]
    exact hw c₀ hc₀ v (he ▸ hv)
  · obtain ⟨vs, v', rfl, hmem, he⟩ := hwritten
    obtain rfl := Option.some.inj (he.symm.trans hv)
    obtain ⟨chunks, result, rfl, hlen, rfl⟩ := hop
    obtain ⟨hrecalls, hresult⟩ := hx
    obtain ⟨i, hi, hzip⟩ := List.getElem_of_mem hmem
    rw [List.length_zip, List.length_map] at hi
    have hi' : i < chunks.length := by omega
    rw [List.getElem_zip, List.getElem_map] at hzip
    obtain ⟨hkey, hvector⟩ := Prod.mk.inj hzip
    obtain ⟨-, hsame⟩ := hrecalls chunks[i] (List.getElem_mem hi')
    obtain ⟨hd, htext⟩ := hsame c₀ hc₀ (hid.symm.trans hkey.symm)
    refine ⟨chunks.map fun c => c.passage.text, result, i, ?_, ?_, ?_, ?_⟩
    · rw [hdoc, hd]
      exact hresult
    · rw [List.length_map, hlen]
    · rw [hpassage, htext, List.getElem?_map, List.getElem?_eq_getElem hi']
      rfl
    · rw [List.getElem?_eq_getElem (by omega), hvector]

end Operations

section Stages

variable {α β : Type}

def KeepsToVectors (sv : Services) (d : DocumentId) {α : Type} (x : Reading) (p : Stage α) : Prop :=
  Follows (vectoring sv d) (fun _ _ => True) x p

/-- A program that writes no vectors. -/
def Vectorless {α : Type} (p : Stage α) : Prop :=
  p.Sends (fun op => ∀ vs, op ≠ .writeEmbeddings vs) fun _ _ => True

theorem Vectorless.keeps {p : Stage α} {x : Reading} (h : Vectorless p) :
    KeepsToVectors sv d x p := by
  induction p generalizing x with
  | ret a => trivial
  | raise e => trivial
  | call op next ih =>
    refine ⟨?_, fun r _ => ih r (h.2 r trivial)⟩
    cases op
    case writeEmbeddings vs => exact absurd rfl (h.1 vs)
    all_goals trivial

theorem keeps_bind {x : Reading} {p : Stage α} {k : α → Stage β}
    (h : Follows (vectoring sv d) (fun y o => ∀ a, o = .ok a → KeepsToVectors sv d y (k a)) x p) :
    KeepsToVectors sv d x (p >>= k) := by
  apply follows_bind
  refine Follows.mono ?_ h
  intro y o ho
  cases o with
  | ok a => exact ho a rfl
  | error e => trivial

/-- What comes first leaves the discipline where it is. -/
theorem keeps_idle_bind {x : Reading} {p : Stage α} {k : α → Stage β}
    (hp : p.Sends (fun op => (vectoring sv d).allowed x op ∧
      ∀ r, (vectoring sv d).next x op r = x) fun _ _ => True)
    (hk : ∀ a, KeepsToVectors sv d x (k a)) : KeepsToVectors sv d x (p >>= k) :=
  keeps_bind (follows_of_sends hp fun _ a _ => hk a)

theorem markFailed_vectorless (doc : Document) (status : DocumentStatus) (event : AuditEventType)
    (message reason : String) : Vectorless (markFailed doc status event message reason) := by
  refine sends_bind (sends_perform nofun) fun _ => ?_
  exact sends_bind (sends_perform nofun) fun _ => trivial

theorem receive_vectorless (id : DocumentId) (filename : String) (data : Bytes)
    (request : UploadRequest) (mimeType : String) :
    Vectorless (UploadService.receive id filename data request mimeType) := by
  refine sends_bind (sends_perform nofun) fun _ => ?_
  refine sends_bind (sends_perform nofun) fun _ => ?_
  refine sends_bind (sends_perform nofun) fun _ => ?_
  exact sends_bind (sends_perform nofun) fun _ => trivial

theorem scan_vectorless (sv : Services) (id : DocumentId) :
    Vectorless (ScanJobHandler.process sv id none) := by
  have hpromote : ∀ doc key v, Vectorless (ScanJobHandler.promote doc key v) := fun doc key v =>
    ScanJobHandler.promote_sends_of (ScanJobHandler.moveToRaw_sends_of nofun nofun nofun)
      nofun nofun
      (ScanJobHandler.lostRace_sends_of nofun nofun (fun _ _ _ _ => nofun) fun _ _ _ => nofun)
      (ScanJobHandler.handOver_sends_of (fun _ _ _ => nofun) nofun)
  refine sends_bind (sends_perform nofun) fun loaded => ?_
  cases loaded with
  | none => trivial
  | some doc =>
    dsimp only
    split
    · trivial
    · refine sends_bind (sends_attempt (sends_perform nofun)) fun read => ?_
      cases read with
      | error e => exact sends_bind (sends_perform nofun) fun _ => trivial
      | ok data =>
        dsimp only
        split
        · refine sends_bind (sends_perform nofun) fun existing => ?_
          cases existing with
          | none => exact hpromote _ _ _
          | some e =>
            dsimp only
            split
            · exact ScanJobHandler.duplicate_sends_of (fun _ _ => nofun) nofun nofun
                fun _ _ _ => nofun
            · exact hpromote _ _ _
        · exact ScanJobHandler.reject_sends_of nofun nofun fun _ _ _ => nofun

theorem extraction_vectorless (sv : Services) (id : DocumentId) :
    Vectorless (ExtractionJobHandler.process sv id) := by
  refine sends_bind (sends_perform nofun) fun loaded => ?_
  cases loaded with
  | none => trivial
  | some doc =>
    dsimp only
    split
    · trivial
    · split
      · exact markFailed_vectorless _ _ _ _ _
      · refine sends_bind (sends_attempt (sends_perform nofun)) fun read => ?_
        cases read with
        | error e => trivial
        | ok data =>
          dsimp only
          unfold ExtractionJobHandler.extract
          split
          · exact markFailed_vectorless _ _ _ _ _
          · trivial
          · refine sends_bind (sends_attempt (sends_perform nofun)) fun written => ?_
            cases written with
            | error e => trivial
            | ok _ =>
              refine sends_bind (sends_perform nofun) fun _ => ?_
              refine sends_bind (sends_perform nofun) fun _ => ?_
              exact sends_bind (sends_perform nofun) fun _ => trivial

theorem normalization_vectorless (sv : Services) (id : DocumentId) :
    Vectorless (NormalizationJobHandler.process sv id) := by
  refine sends_bind (sends_perform nofun) fun loaded => ?_
  cases loaded with
  | none => trivial
  | some doc =>
    dsimp only
    split
    · trivial
    · refine sends_bind (sends_attempt (sends_perform nofun)) fun read => ?_
      cases read with
      | error e => trivial
      | ok extraction =>
        dsimp only
        split
        · refine sends_bind (sends_attempt (sends_perform nofun)) fun written => ?_
          cases written with
          | error e => trivial
          | ok _ =>
            refine sends_bind (sends_perform nofun) fun _ => ?_
            refine sends_bind (sends_perform nofun) fun _ => ?_
            exact sends_bind (sends_perform nofun) fun _ => trivial
        · exact markFailed_vectorless _ _ _ _ _

theorem chunking_vectorless (sv : Services) (id : DocumentId) :
    Vectorless (ChunkingJobHandler.process sv id) := by
  refine sends_bind (sends_perform nofun) fun loaded => ?_
  cases loaded with
  | none => trivial
  | some doc =>
    dsimp only
    split
    · trivial
    · refine sends_bind (sends_attempt (sends_perform nofun)) fun read => ?_
      cases read with
      | error e => trivial
      | ok normalized =>
        dsimp only
        split
        · exact markFailed_vectorless _ _ _ _ _
        · refine sends_bind (sends_attempt (sends_perform nofun)) fun persisted => ?_
          cases persisted with
          | error e => trivial
          | ok _ =>
            refine sends_bind (sends_perform nofun) fun _ => ?_
            refine sends_bind (sends_perform nofun) fun _ => ?_
            exact sends_bind (sends_perform nofun) fun _ => trivial

namespace EmbeddingJobHandler

theorem store_keeps {doc : Document} {chunks : List Chunk} {result : EmbeddingResult}
    (hlen : result.vectors.length = chunks.length) :
    KeepsToVectors sv d (.made chunks result) (store doc chunks result) := by
  refine keeps_idle_bind (sends_attempt (sends_perform ⟨⟨chunks, result, rfl, hlen, rfl⟩, ?_⟩))
    fun written => ?_
  · exact fun r => rfl
  · apply Vectorless.keeps
    cases written with
    | error e => trivial
    | ok _ =>
      refine sends_bind (sends_perform nofun) fun _ => ?_
      exact sends_bind (sends_perform nofun) fun _ => trivial

/-- The vectors are those of the passages as they were read. -/
theorem embed_keeps {doc : Document} (hid : doc.id = d) (chunks : List Chunk) :
    KeepsToVectors sv d (.read chunks) (embed doc chunks) := by
  subst hid
  refine keeps_bind (follows_attempt (follows_perform trivial fun r _ => ?_))
  intro embedded he
  rw [← Except.ok.inj he]
  cases r with
  | error e =>
    apply Vectorless.keeps
    cases e with
    | valueError m => exact markFailed_vectorless _ _ _ _ _
    | _ => trivial
  | ok result =>
    show KeepsToVectors sv doc.id (if _ then _ else _) (if _ then _ else _)
    rw [if_pos ⟨rfl, rfl⟩]
    split
    · exact (markFailed_vectorless _ _ _ _ _).keeps
    · rename_i hlen
      exact store_keeps (not_not.mp hlen)

theorem process_keeps (sv : Services) (d : DocumentId) :
    KeepsToVectors sv d .nothing (process sv d) := by
  refine keeps_bind (follows_perform trivial fun r hr => ?_)
  obtain ⟨w, rfl⟩ := possible_getById hr
  rintro loaded hloaded
  obtain rfl := Except.ok.inj hloaded
  cases hd : w.doc d with
  | none => trivial
  | some doc =>
    have hid := Documents.get_id hd
    show KeepsToVectors sv d .nothing (if _ then _ else _)
    split
    · trivial
    · have hlanguage : (detectedLanguage sv d).Sends
          (fun op => (vectoring sv d).allowed .nothing op ∧
            ∀ r, (vectoring sv d).next .nothing op r = .nothing) fun _ _ => True := by
        refine sends_bind (sends_attempt (sends_perform ⟨trivial, fun _ => rfl⟩)) fun read => ?_
        cases read with
        | error e => trivial
        | ok result =>
          dsimp only
          split <;> trivial
      refine keeps_idle_bind hlanguage fun language => ?_
      split
      · apply Vectorless.keeps
        refine sends_bind (sends_perform nofun) fun _ => ?_
        exact sends_bind (sends_perform nofun) fun _ => trivial
      · refine keeps_bind (follows_perform trivial fun r _ => ?_)
        rintro chunks rfl
        show KeepsToVectors sv d (if d = d then _ else _) (if _ then _ else _)
        rw [if_pos rfl]
        split
        · exact (markFailed_vectorless _ _ _ _ _).keeps
        · exact embed_keeps hid chunks

end EmbeddingJobHandler

theorem processJob_keeps (sv : Services) (stage : JobStage) (d : DocumentId) :
    KeepsToVectors sv d .nothing (processJob sv stage d) := by
  have hends : ∀ {γ : Type} {p : Stage γ} (f : γ → JobOutcome), Vectorless p →
      KeepsToVectors sv d .nothing (do return f (← p)) := by
    intro γ p f hp
    have hwhole : Vectorless (do return f (← p)) := sends_bind hp fun _ => trivial
    exact hwhole.keeps
  cases stage with
  | scan => exact hends _ (scan_vectorless sv d)
  | extract => exact hends _ (extraction_vectorless sv d)
  | normalize => exact hends _ (normalization_vectorless sv d)
  | chunk => exact hends _ (chunking_vectorless sv d)
  | embed =>
    refine keeps_bind (Follows.mono ?_ (EmbeddingJobHandler.process_keeps sv d))
    exact fun _ _ _ _ _ => trivial

end Stages

section Runs

variable {fleet : Fleet}

/-- The vectors are the passages' own, and each program at work knows what it has read. -/
structure VectorsKept (sv : Services) (s : RunningState) : Prop where
  keys : KeysFresh s.world
  own : OwnVectors sv s.world
  uploads : ∀ id p, s.uploads id = some p → Vectorless p
  workers : ∀ i item, s.current i = some item →
    ∃ d x, KeepsToVectors sv d x (s.rest i) ∧ x.Holds sv s.world d

/-- One operation by anyone, as it concerns the passages. -/
theorem VectorsKept.acts {s : RunningState} (hs : VectorsKept sv s) (h : Acts sv op s.world r w')
    {x : Reading} (hop : (vectoring sv d).allowed x op) (hx : x.Holds sv s.world d) :
    KeysFresh w' ∧ OwnVectors sv w' ∧ ∀ i item, s.current i = some item →
      ∃ d x, KeepsToVectors sv d x (s.rest i) ∧ x.Holds sv w' d := by
  refine ⟨keys_of_acts h hs.keys, ownVectors_step hop h hx hs.own, fun i item hi => ?_⟩
  obtain ⟨d', x', hp, hx'⟩ := hs.workers i item hi
  exact ⟨d', x', hp, hx'.acts h⟩

theorem vectors_of_step {s t : RunningState} {a : RunAction} (hs : VectorsKept sv s)
    (h : s.step sv fleet a = some t) : VectorsKept sv t := by
  cases step_cases h with
  | receive id filename data request mimeType hfree =>
    refine ⟨hs.keys, hs.own, update_some hs.uploads fun p hp => ?_, hs.workers⟩
    obtain rfl := Option.some.inj hp
    exact receive_vectorless id filename data request mimeType
  | upload id luck p q w hp hstep =>
    obtain ⟨op, next, rfl, rfl, rfl⟩ := Program.step_cases hstep
    have hsends := hs.uploads id _ hp
    have hact : Acts sv op s.world _ _ := ⟨luck, rfl⟩
    obtain ⟨hkeys, hown, hworkers⟩ :=
      hs.acts hact (hsends.keeps (d := id) (x := .nothing)).1 trivial
    refine ⟨hkeys, hown, update_some hs.uploads fun q hq => ?_, hworkers⟩
    exact Option.some.inj hq ▸ hsends.2 _ trivial
  | endUpload id => exact ⟨hs.keys, hs.own, update_some hs.uploads nofun, hs.workers⟩
  | work i luck item q w hi hstep =>
    obtain ⟨op, next, hrest, rfl, rfl⟩ := Program.step_cases hstep
    have hact : Acts sv op s.world _ _ := ⟨luck, rfl⟩
    obtain ⟨d, x, hp, hx⟩ := hs.workers i item hi
    rw [hrest] at hp
    obtain ⟨hkeys, hown, hworkers⟩ := hs.acts hact hp.1 hx
    refine ⟨hkeys, hown, hs.uploads, fun j item' hj => ?_⟩
    show ∃ d x, KeepsToVectors sv d x (Function.update s.rest i _ j) ∧ _
    by_cases hij : j = i
    · rw [hij, Function.update_self]
      exact ⟨d, _, hp.2 _ ⟨_, _, hact⟩, reading_step hact hs.keys hx⟩
    · rw [Function.update_of_ne hij]
      exact hworkers j item' hj
  | queue _ act q hact hstep =>
    refine ⟨⟨hs.keys.nodup, hs.keys.below⟩, hs.own, hs.uploads, fun i item hi => ?_⟩
    show ∃ d x, KeepsToVectors sv d x (s.started sv a q i) ∧ _
    rcases queue_current (queue_cases hact) hstep hi with ⟨hc, hrest⟩ | ⟨w, row, -, rfl, hrest⟩
    · rw [hrest]
      obtain ⟨d, x, hp, hx⟩ := hs.workers i item hc
      refine ⟨d, x, hp, ?_⟩
      cases x with
      | nothing => trivial
      | read chunks => exact hx
      | made chunks result => exact hx
    · rw [hrest]
      exact ⟨row.documentId, .nothing, processJob_keeps sv row.stage row.documentId, trivial⟩

/-- A world with passages of another that keep their vectors. -/
theorem VectorsKept.of_sublist {s : RunningState} (hs : VectorsKept sv s)
    (hsub : w.chunks.Sublist s.world.chunks) (hnext : w.nextId = s.world.nextId) :
    VectorsKept sv { s with world := w } where
  keys := by
    refine ⟨hs.keys.nodup.sublist (hsub.map _), fun c hc => ?_⟩
    rw [hnext]
    exact hs.keys.below c (hsub.subset hc)
  own c hc := hs.own c (hsub.subset hc)
  uploads := hs.uploads
  workers i item hi := by
    obtain ⟨d, x, hp, hx⟩ := hs.workers i item hi
    have hrecalls : ∀ chunks, Recalls s.world d chunks → Recalls w d chunks := by
      intro chunks hr c₀ hc₀
      obtain ⟨hlt, hsame⟩ := hr c₀ hc₀
      exact ⟨hnext ▸ hlt, fun c hc => hsame c (hsub.subset hc)⟩
    refine ⟨d, x, hp, ?_⟩
    cases x with
    | nothing => trivial
    | read chunks => exact hrecalls chunks hx
    | made chunks result => exact ⟨hrecalls chunks hx.1, hx.2⟩

/-- A delete takes passages away and brings none. -/
theorem passages_of_moves {e : Eraser} {fine : Bool} {x : Eraser ⊕ EraseOutcome}
    (h : e.Moves fine w x w') : w'.chunks.Sublist w.chunks ∧ w'.nextId = w.nextId := by
  refine ⟨?_, (jobs_of_moves h).1⟩
  cases h with
  | refused | unclaimed | absent | claimed => exact .refl _
  | removed doc _ slot =>
    rw [(World.removeSlot_rows w doc slot).2.1]
  | unindexed => exact List.filter_sublist
  | purged doc =>
    obtain ⟨t, ht⟩ := w.purge_eq doc.id
    rw [ht]
  | erased doc =>
    split
    · exact .refl _
    · obtain ⟨t, ht⟩ := w.purgeDuplicatesOf_eq _
      rw [ht]

theorem archive_vectors {s t : ErasingState} {a : ArchiveAction} (hs : VectorsKept sv s.running)
    (h : archiveStep sv fleet s a = some t) : VectorsKept sv t.running := by
  have hedit : ∀ {u : Documents}, VectorsKept sv
      { s.running with world := { s.running.world with documents := u } } :=
    hs.of_sublist (.refl _) rfl
  cases a with
  | reclassify id tier =>
    obtain rfl := Option.some.inj h
    obtain ⟨u, hu⟩ := setClassification_eq s.world id tier
    rw [hu]
    exact hedit
  | softDelete id =>
    obtain rfl := Option.some.inj h
    obtain ⟨u, hu⟩ := softDelete_snd s.world id
    rw [hu]
    exact hedit
  | restore id =>
    obtain rfl := Option.some.inj h
    obtain ⟨u, hu⟩ := restore_snd s.world id
    rw [hu]
    exact hedit
  | erasing a =>
    cases a with
    | run a =>
      obtain ⟨running, hrun, rfl⟩ := Option.map_eq_some_iff.mp h
      exact vectors_of_step hs hrun
    | deleteDocument id =>
      simp only [archiveStep, ErasingState.step] at h
      split at h
      · split at h
        · obtain rfl := Option.some.inj h
          exact hs
        · cases h
      · cases h
    | eraseDocument fine =>
      obtain ⟨e, he, rfl⟩ := Option.map_eq_some_iff.mp h
      obtain ⟨hsub, hnext⟩ := passages_of_moves (Eraser.step_moves fine s.world e)
      dsimp only
      split <;> exact hs.of_sublist hsub hnext

/-- In every run a stored vector is the one that the model gave for the text beside it. -/
theorem vectors_own {s t : ErasingState} {as : List ArchiveAction} (hs : s.Fresh)
    (h : Runs (archiveStep sv fleet) (fun _ _ => True) s as t) {c : Chunk}
    (hc : c ∈ t.world.chunks) {v : EmbeddingVector} (hv : c.embedding = some v) :
    VectorOf sv c.documentId c.passage.text v := by
  have hstart : VectorsKept sv s.running := by
    refine ⟨⟨?_, ?_⟩, ?_, ?_, ?_⟩
    · rw [hs.running.chunks]
      exact List.nodup_nil
    · rw [hs.running.chunks]
      exact fun c hc => nomatch hc
    · intro c hc
      rw [hs.running.chunks] at hc
      cases hc
    · intro id p hp
      rw [hs.running.uploads] at hp
      cases hp
    · intro i item hi
      rw [hs.running.current] at hi
      cases hi
  have hend := h.invariant (I := fun u => VectorsKept sv u.running)
    (fun _ _ _ hu _ hstep => archive_vectors hu hstep) hstart
  exact hend.own c hc v hv

end Runs

/-- The memo until it is LIVE, and then deleted by hand. -/
def embeddedMemo : List ArchiveAction :=
  (beforePersist ++ RunAction.work 3 .fine :: afterPersist).map (fun a => .erasing (.run a)) ++
    [.softDelete 0]

theorem embedded_memo_own : VectorOf plainServices 0 "page" [1] := by
  let t := finalState (archiveStep plainServices plainFleet) freshDeletes embeddedMemo
  have hrun : Runs (archiveStep plainServices plainFleet) (fun _ _ => True) freshDeletes
      embeddedMemo t := runs_of_exec_free (by decide +kernel)
  have hchunks : t.world.chunks.map (fun c => (c.documentId, c.passage.text, c.embedding)) =
      [(0, "page", some [1])] := by decide +kernel
  have hmem : (0, "page", some [1]) ∈
      t.world.chunks.map fun c => (c.documentId, c.passage.text, c.embedding) := by
    rw [hchunks]
    exact List.mem_singleton.mpr rfl
  obtain ⟨c, hc, he⟩ := List.mem_map.mp hmem
  obtain ⟨hdoc, hrest⟩ := Prod.mk.inj he
  obtain ⟨htext, hvector⟩ := Prod.mk.inj hrest
  rw [← hdoc, ← htext]
  exact vectors_own freshDeletes_fresh hrun hc hvector

end KnowledgeBase
