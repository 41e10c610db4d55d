import KnowledgeBase.Erasure
import KnowledgeBase.Searchable
import KnowledgeBase.VisibleSearch

/-! What a search finds of documents that are not LIVE. The arms ask for no status, and the
lexical one for no vector, so that what has passages is found. -/

namespace KnowledgeBase

open Program RunningState Transition RetrievalService

/-- Whatever the models and whoever searches, what is returned has a vector and is of a LIVE
document. -/
def OnlyLiveFound (w : World) : Prop :=
  ∀ (e : SearchEngine) (cfg : SearchSettings) (u : Unicode) (casing : Casing) (q : SearchRequest),
    ∀ r ∈ (search e cfg u casing q w.corpus).1, ∃ c ∈ w.chunks, ∃ d,
      r.chunkId = c.chunkId ∧ w.doc c.documentId = some d ∧ c.embedding ≠ none ∧
        d.status = .live ∧ d.deletedAt = none

/-- A document that is not deleted and has passages is LIVE and has their vectors. -/
def PassagesLive (w : World) : Prop :=
  ∀ c ∈ w.chunks, ∀ d, w.doc c.documentId = some d → d.deletedAt = none →
    d.status = .live ∧ c.embedding ≠ none

section Found

variable {e : SearchEngine} {cfg : SearchSettings} {u : Unicode} {casing : Casing}
  {q : SearchRequest} {db : Corpus}

/-- A search by words alone returns what matches them. -/
theorem lexical_of_returned (hk : db.Keyed) (hmode : q.mode = .lexical) {r : RankedChunk}
    (hr : r ∈ (search e cfg u casing q db).1) :
    ∃ p ∈ lexicalRows e u casing q db, r.chunkId = p.1.chunkId := by
  obtain ⟨kept, hres, ordered, hperm, hkept⟩ := search_rows e cfg u casing q db
  rw [hres] at hr
  obtain ⟨p, hp, rfl⟩ := List.mem_map.mp hr
  have hrow : p.1 ∈ rows e cfg u casing q db :=
    hperm.mem_iff.mp (List.mem_of_mem_take (hkept ▸ List.mem_map_of_mem hp))
  have hfused := (Ranking.orderBy_perm _ _).mem_iff.mp (List.mem_of_mem_take hrow)
  obtain ⟨-, hcand, hid⟩ := mem_fusedRows hk hfused
  rw [candidates, hmode] at hcand
  obtain ⟨l, hl, he⟩ := List.mem_map.mp hcand
  obtain ⟨m, hm, rfl⟩ := List.mem_map.mp hl
  refine ⟨m.1, Ranking.mem_of_mem_top hm, hid.trans ?_⟩
  rw [← he]
  rfl

/-- It returns something where something matches. -/
theorem returned_of_lexical (hk : db.Keyed) (hmode : q.mode = .lexical)
    (hrerank : q.rerank = some false) (hlimit : 0 < q.limit)
    (h : lexicalRows e u casing q db ≠ []) : (search e cfg u casing q db).1 ≠ [] := by
  have hrr : reranker e q = none := by simp [reranker, hrerank]
  have hfetch : fetch e cfg q = q.limit := by simp [fetch, hrr]
  have hpool : 0 < pool e cfg q := by
    rw [pool, hfetch, candidatePool, maxCandidates]
    omega
  have harm : lexicalArm e u casing q db (pool e cfg q) ≠ [] := by
    rw [lexicalArm, ne_eq, List.map_eq_nil_iff]
    exact Ranking.top_ne_nil hpool h
  obtain ⟨l, hl⟩ := List.exists_mem_of_ne_nil _ harm
  have hcand : ∃ f ∈ candidates e cfg u casing q db, f.chunkId = l.chunkId ∧
      f.lexicalRank = some l.rank := lexical_candidate (by simp [hmode]) hl
  obtain ⟨f, hf, -⟩ := hcand
  obtain ⟨c, d, -, -, hrow⟩ := rowOf_candidate hk hf
  have hfused : (candidates e cfg u casing q db).filterMap (rowOf db) ≠ [] :=
    List.ne_nil_of_mem (List.mem_filterMap.mpr ⟨f, hf, hrow⟩)
  have hlen : 0 < (rows e cfg u casing q db).length := by
    have hpos := List.length_pos_iff.mpr hfused
    rw [rows, List.length_take, (Ranking.orderBy_perm _ _).length_eq, hfetch]
    omega
  have hres : (search e cfg u casing q db).1.length =
      min q.limit (rows e cfg u casing q db).length := by simp [search, hrr, rerankRows]
  rw [ne_eq, ← List.length_eq_zero_iff, hres]
  omega

end Found

section Iff

/-- An index in which one passage matches, and no other. -/
def indexOf (c : Chunk) : SearchEngine where
  modelName := ""
  embedQuery _ := []
  cosineDistance _ _ := 0
  bm25 _ _ c' := if c' = c then some 1 else none
  reranker := none
  countTokens := List.length
  maxSequenceTokens := 0

/-- The search of an administrator, by words alone, for one passage. -/
def oneByWords : SearchRequest where
  query := []
  userId := none
  isAdmin := true
  limit := 1
  mode := .lexical
  rerank := some false
  documentIds := []

variable {w : World}

/-- Each passage of a document that is not deleted is found by some words. -/
theorem found_by_words (hk : w.corpus.Keyed) (u : Unicode) (casing : Casing)
    (cfg : SearchSettings) {c : Chunk} (hc : c ∈ w.chunks) {d : Document}
    (hd : w.doc c.documentId = some d) (hdel : d.deletedAt = none) :
    ∃ r ∈ (search (indexOf c) cfg u casing oneByWords w.corpus).1, r.chunkId = c.chunkId := by
  have hv : visible oneByWords [] d = true := by
    simp [visible, hdel, visibleDocumentsClause, oneByWords, inScope]
  have hrows : ∀ p, p ∈ lexicalRows (indexOf c) u casing oneByWords w.corpus → p.1 = c := by
    intro p hp
    rw [lexicalRows_eq] at hp
    obtain ⟨m, -, hm⟩ := List.mem_filterMap.mp hp
    by_cases hmc : m.1 = c
    · simp [inScope, oneByWords, indexOf, hmc] at hm
      rw [← hm]
    · simp [inScope, oneByWords, indexOf, hmc] at hm
  have hne : lexicalRows (indexOf c) u casing oneByWords w.corpus ≠ [] := by
    rw [lexicalRows_eq]
    refine List.ne_nil_of_mem (a := (c, 1)) (List.mem_filterMap.mpr ⟨(c, d), ?_, ?_⟩)
    · exact mem_seen.mpr ⟨hc, hd, hv⟩
    · simp [inScope, oneByWords, indexOf]
  have hret : (search (indexOf c) cfg u casing oneByWords w.corpus).1 ≠ [] :=
    returned_of_lexical hk rfl rfl Nat.one_pos hne
  obtain ⟨r, hr⟩ := List.exists_mem_of_ne_nil _ hret
  obtain ⟨p, hp, hid⟩ := lexical_of_returned hk rfl hr
  exact ⟨r, hr, hid.trans (by rw [hrows p hp])⟩

theorem onlyLiveFound_iff (hk : w.corpus.Keyed) : OnlyLiveFound w ↔ PassagesLive w := by
  constructor
  · intro h c hc d hd hdel
    obtain ⟨r, hr, hid⟩ := found_by_words hk ascii ⟨Char.isUpper, List.map Char.toLower⟩
      plainSettings hc hd hdel
    obtain ⟨c', hc', d', hid', hd', hv, hlive, -⟩ := h _ _ _ _ _ r hr
    obtain rfl : c' = c := List.inj_on_of_nodup_map hk hc' hc (hid'.symm.trans hid)
    obtain rfl := Option.some.inj (hd.symm.trans hd')
    exact ⟨hlive, hv⟩
  · intro h e cfg u casing q r hr
    obtain ⟨c, hc, d, hd, hv, hdoc, hid, -⟩ := (search_confined hk).visible r hr
    have hrow : w.doc c.documentId = some d := by
      rw [hdoc]
      exact Documents.get_of_mem hd
    have hdel : d.deletedAt = none := by
      simp only [visible, Bool.and_eq_true, decide_eq_true_eq] at hv
      exact hv.1.1
    obtain ⟨hlive, hvec⟩ := h c hc d hrow hdel
    exact ⟨c, hc, d, hid, hrow, hvec, hlive, hdel⟩

end Iff

/-- What happens beside uploads and workers: an operation of the Drive sync, of the API or of
a reprocessing script, and a delete. -/
inductive LibraryAction where
  | run (a : RunAction)
  | outside (op : Op) (luck : Luck)
  | erase (id : DocumentId)

def libraryStep (sv : Services) (fleet : Fleet) (s : RunningState) :
    LibraryAction → Option RunningState
  | .run a => s.step sv fleet a
  | .outside op luck => some { s with world := (effect sv luck op s.world).2 }
  | .erase id => (s.world.doc id).map fun d => { s with world := s.world.eraseDocument d }

section Runs

variable {sv : Services} {fleet : Fleet} {s t : RunningState}

theorem keys_of_erase {w : World} (hk : KeysFresh w) (doc : Document) :
    KeysFresh (w.eraseDocument doc) := by
  by_cases hb : w.busy doc.id = true
  · have hsame : w.eraseDocument doc = w := by
      unfold World.eraseDocument
      exact if_pos hb
    rw [hsame]
    exact hk
  · obtain ⟨a, ha⟩ := w.eraseDocument_eq (Bool.eq_false_iff.mpr hb)
    rw [ha]
    constructor
    · exact hk.nodup.sublist (List.filter_sublist.map _)
    · exact fun c hc => hk.below c (List.mem_of_mem_filter hc)

theorem keys_of_step {a : RunAction} (hk : KeysFresh s.world) (h : s.step sv fleet a = some t) :
    KeysFresh t.world := by
  cases step_cases h with
  | receive => exact hk
  | endUpload => exact hk
  | upload id luck p q w hp hstep =>
    obtain ⟨op, next, rfl, rfl, rfl⟩ := Program.step_cases hstep
    exact keys_of_acts ⟨luck, rfl⟩ hk
  | work i luck item q w hi hstep =>
    obtain ⟨op, next, hrest, rfl, rfl⟩ := Program.step_cases hstep
    exact keys_of_acts ⟨luck, rfl⟩ hk
  | queue _ act q hact hstep => exact ⟨hk.nodup, hk.below⟩

theorem keys_of_libraryStep {a : LibraryAction} (hk : KeysFresh s.world)
    (h : libraryStep sv fleet s a = some t) : KeysFresh t.world := by
  cases a with
  | run a => exact keys_of_step hk h
  | outside op luck =>
    obtain rfl := Option.some.inj h
    exact keys_of_acts ⟨luck, rfl⟩ hk
  | erase id =>
    obtain ⟨d, -, rfl⟩ := Option.map_eq_some_iff.mp h
    exact keys_of_erase hk d

/-- In every state a run reaches, searches find LIVE documents alone exactly when no other
document has passages. -/
theorem only_live_found_iff {as : List LibraryAction} (hs : s.Fresh)
    (h : Runs (libraryStep sv fleet) (fun _ _ => True) s as t) :
    OnlyLiveFound t.world ↔ PassagesLive t.world := by
  have hinit : KeysFresh s.world := by
    constructor
    · rw [hs.chunks]
      exact List.nodup_nil
    · intro c hc
      rw [hs.chunks] at hc
      cases hc
  have hkeys : KeysFresh t.world :=
    h.invariant (fun _ _ _ hk _ hstep => keys_of_libraryStep hk hstep) hinit
  exact onlyLiveFound_iff hkeys.nodup

theorem runs_library {as : List RunAction}
    (h : Runs (step sv fleet) (fun _ _ => True) s as t) :
    Runs (libraryStep sv fleet) (fun _ _ => True) s (as.map .run) t := by
  induction as generalizing s with
  | nil => exact h
  | cons a as ih =>
    obtain ⟨-, v, hv, hr⟩ := h
    exact ⟨trivial, v, hv, ih hr⟩

end Runs

/-- The passages of a document are there before their vectors are. -/
def chunkedRun : List RunAction := beforePersist ++ List.replicate 2 (.work 3 .fine)

/-- The same document when it is LIVE. -/
def liveRun : List RunAction := beforePersist ++ .work 3 .fine :: afterPersist

theorem live_document_found : OnlyLiveFound (ranTo liveRun).world := by
  have hrun : Runs (step plainServices plainFleet) (fun _ _ => True) freshState liveRun
      (ranTo liveRun) := runs_of_exec_free (by decide +kernel)
  refine (only_live_found_iff freshState_fresh (runs_library hrun)).mpr ?_
  have hchunks : (ranTo liveRun).world.chunks.all
      (fun c => c.documentId = 0 && c.embedding.isSome) = true := by decide +kernel
  have hrow : ((ranTo liveRun).world.doc 0).map Document.status = some .live := by decide +kernel
  intro c hc d hd _
  have hboth := List.all_eq_true.mp hchunks c hc
  simp only [Bool.and_eq_true, decide_eq_true_eq] at hboth
  rw [hboth.1] at hd
  rw [hd] at hrow
  exact ⟨Option.some.inj hrow, Option.isSome_iff_ne_none.mp hboth.2⟩

/-- A document that waits for its vectors is found by its words. -/
theorem chunked_document_found : ¬ ∀ (sv : Services) (fleet : Fleet) (s t : RunningState)
    (as : List LibraryAction), s.Fresh →
    Runs (libraryStep sv fleet) (fun _ _ => True) s as t → OnlyLiveFound t.world := by
  intro h
  have hrun : Runs (step plainServices plainFleet) (fun _ _ => True) freshState chunkedRun
      (ranTo chunkedRun) := runs_of_exec_free (by decide +kernel)
  have hfound := h _ _ _ _ _ freshState_fresh (runs_library hrun)
  have hkeyed : (ranTo chunkedRun).world.corpus.Keyed := by decide +kernel
  have hlive := (onlyLiveFound_iff hkeyed).mp hfound
  have hchunks : (ranTo chunkedRun).world.chunks.map Chunk.documentId = [0] := by decide +kernel
  have hrow : ((ranTo chunkedRun).world.doc 0).map (fun d => (d.status, d.deletedAt)) =
      some (.chunked, none) := by decide +kernel
  obtain ⟨c, hc, hid⟩ := List.mem_map.mp (hchunks ▸ List.mem_singleton_self 0 :
    0 ∈ (ranTo chunkedRun).world.chunks.map Chunk.documentId)
  obtain ⟨d, hd, hs⟩ := Option.map_eq_some_iff.mp hrow
  obtain ⟨hstatus, hdel⟩ := Prod.mk.inj hs
  have hst := (hlive c hc d (hid ▸ hd) hdel).1
  rw [hstatus] at hst
  cases hst

end KnowledgeBase
