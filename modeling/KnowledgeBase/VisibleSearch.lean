import KnowledgeBase.Retrieval
import KnowledgeBase.StageHandlers

/-! What a search returns depends on the part of the corpus that its viewer may see. -/

namespace KnowledgeBase

/-- The primary key of the chunks table. -/
def Corpus.Keyed (db : Corpus) : Prop := (db.chunks.map Chunk.chunkId).Nodup

instance (db : Corpus) : Decidable db.Keyed :=
  inferInstanceAs (Decidable (db.chunks.map Chunk.chunkId).Nodup)

namespace RetrievalService

variable {e : SearchEngine} {cfg : SearchSettings} {u : Unicode} {casing : Casing}
  {q : SearchRequest} {db db' : Corpus}

/-- The databases differ only in documents that are deleted or that the viewer may not see. -/
structure SameVisible (q : SearchRequest) (db db' : Corpus) : Prop where
  documents : ∀ d, visible q [] d = true → (d ∈ db.documents.rows ↔ d ∈ db'.documents.rows)
  chunks : ∀ d ∈ db.documents.rows, visible q [] d = true →
    ∀ c, c.documentId = d.id → (c ∈ db.chunks ↔ c ∈ db'.chunks)

/-- No two rows of an arm that runs have the same score. -/
structure NoTies (e : SearchEngine) (u : Unicode) (casing : Casing) (q : SearchRequest)
    (db : Corpus) : Prop where
  semantic : q.mode ≠ .lexical →
    ∀ a ∈ semanticRows e q db, ∀ b ∈ semanticRows e q db, a.2 = b.2 → a = b
  lexical : q.mode ≠ .semantic →
    ∀ a ∈ lexicalRows e u casing q db, ∀ b ∈ lexicalRows e u casing q db, a.2 = b.2 → a = b

/-- The part of the corpus that the viewer may see. -/
def seen (q : SearchRequest) (db : Corpus) : List (Chunk × Document) :=
  (joined db).filter fun r => visible q [] r.2

section Seen

theorem mem_seen {c : Chunk} {d : Document} : (c, d) ∈ seen q db ↔
    c ∈ db.chunks ∧ db.documents.get c.documentId = some d ∧ visible q [] d = true := by
  simp only [seen, joined, List.mem_filter, List.mem_filterMap, Option.map_eq_some_iff,
    Prod.mk.injEq]
  constructor
  · rintro ⟨⟨c', hc, d', hd, rfl, rfl⟩, hv⟩
    exact ⟨hc, hd, hv⟩
  · rintro ⟨hc, hd, hv⟩
    exact ⟨⟨c, hc, d, hd, rfl, rfl⟩, hv⟩

theorem map_fst_joined_sublist (db : Corpus) :
    ((joined db).map Prod.fst).Sublist db.chunks := by
  unfold joined
  induction db.chunks with
  | nil => exact List.Sublist.slnil
  | cons c cs ih =>
    cases hd : db.documents.get c.documentId with
    | none => simpa [hd] using ih.cons c
    | some d => simpa [hd] using ih

theorem nodup_seen (h : db.Keyed) : ((seen q db).map fun r => r.1.chunkId).Nodup := by
  have hsub : ((seen q db).map Prod.fst).Sublist db.chunks :=
    (List.filter_sublist.map Prod.fst).trans (map_fst_joined_sublist db)
  have hids := h.sublist (hsub.map Chunk.chunkId)
  rw [List.map_map] at hids
  exact hids

theorem mem_rows_iff {t : Documents} {d : Document} : d ∈ t.rows ↔ t.get d.id = some d :=
  ⟨Documents.get_of_mem, Documents.mem_of_get⟩

theorem mem_seen_of_same (h : SameVisible q db db') {c : Chunk} {d : Document}
    (hcd : (c, d) ∈ seen q db) : (c, d) ∈ seen q db' := by
  obtain ⟨hc, hd, hv⟩ := mem_seen.mp hcd
  have hid := Documents.get_id hd
  have hrow := Documents.mem_of_get hd
  have hrow' := (h.documents d hv).mp hrow
  have hd' : db'.documents.get c.documentId = some d := hid ▸ Documents.get_of_mem hrow'
  exact mem_seen.mpr ⟨(h.chunks d hrow hv c hid.symm).mp hc, hd', hv⟩

theorem SameVisible.symm (h : SameVisible q db db') : SameVisible q db' db where
  documents d hv := (h.documents d hv).symm
  chunks d hd hv c hc := (h.chunks d ((h.documents d hv).mpr hd) hv c hc).symm

/-- The visible parts hold the same rows, in whatever order they lie. -/
theorem seen_perm (h : SameVisible q db db') (hk : db.Keyed) (hk' : db'.Keyed) :
    (seen q db).Perm (seen q db') := by
  rw [List.perm_ext_iff_of_nodup (nodup_seen hk).of_map (nodup_seen hk').of_map]
  rintro ⟨c, d⟩
  exact ⟨mem_seen_of_same h, mem_seen_of_same h.symm⟩

end Seen

section Arms

theorem visible_eq (documentIds : List DocumentId) (d : Document) :
    visible q documentIds d = (visible q [] d && inScope documentIds d.id) := by
  simp [visible, inScope]

theorem semanticRows_eq : semanticRows e q db = (seen q db).filterMap fun r =>
    if inScope q.documentIds r.2.id then
      r.1.embedding.map fun v => (r.1, e.cosineDistance v (e.embedQuery q.query))
    else none := by
  rw [semanticRows, seen, List.filterMap_filter]
  refine List.filterMap_congr fun r _ => ?_
  rw [visible_eq]
  cases visible q [] r.2 <;> simp

theorem lexicalRows_eq : lexicalRows e u casing q db = (seen q db).filterMap fun r =>
    if inScope q.documentIds r.1.documentId then
      (e.bm25 (LexicalQuery.lexicalQuery u casing q.query) q.documentIds r.1).map (r.1, ·)
    else none := by
  rw [lexicalRows, seen, List.filterMap_filter]
  refine List.filterMap_congr fun r _ => ?_
  cases visible q [] r.2 <;> simp

theorem mem_seen_of_semantic {r : Chunk × Rat} (h : r ∈ semanticRows e q db) :
    ∃ d, (r.1, d) ∈ seen q db := by
  rw [semanticRows_eq] at h
  obtain ⟨p, hp, he⟩ := List.mem_filterMap.mp h
  split at he
  · obtain ⟨v, -, rfl⟩ := Option.map_eq_some_iff.mp he
    exact ⟨p.2, hp⟩
  · cases he

theorem mem_seen_of_lexical {r : Chunk × Rat} (h : r ∈ lexicalRows e u casing q db) :
    ∃ d, (r.1, d) ∈ seen q db := by
  rw [lexicalRows_eq] at h
  obtain ⟨p, hp, he⟩ := List.mem_filterMap.mp h
  split at he
  · obtain ⟨v, -, rfl⟩ := Option.map_eq_some_iff.mp he
    exact ⟨p.2, hp⟩
  · cases he

/-- The rows of an arm are some of the chunks that are seen, each once. -/
theorem nodup_filterMap_seen (hk : db.Keyed) {f : Chunk × Document → Option (Chunk × Rat)}
    (hf : ∀ r p, f r = some p → p.1 = r.1) :
    (((seen q db).filterMap f).map fun r => r.1.chunkId).Nodup := by
  have hids : ((seen q db).map fun r => r.1.chunkId).Nodup := nodup_seen hk
  have hsub : (((seen q db).filterMap f).map fun r => r.1.chunkId).Sublist
      ((seen q db).map fun r => r.1.chunkId) := by
    clear hids
    induction seen q db with
    | nil => exact List.Sublist.slnil
    | cons r rs ih =>
      cases hr : f r with
      | none => simpa [hr] using ih.cons r.1.chunkId
      | some p => simpa [hr, hf r p hr] using ih
  exact hids.sublist hsub

theorem nodup_semanticRows (hk : db.Keyed) :
    ((semanticRows e q db).map fun r => r.1.chunkId).Nodup := by
  rw [semanticRows_eq]
  refine nodup_filterMap_seen hk fun r p hp => ?_
  split at hp
  · obtain ⟨v, -, rfl⟩ := Option.map_eq_some_iff.mp hp
    rfl
  · cases hp

theorem nodup_lexicalRows (hk : db.Keyed) :
    ((lexicalRows e u casing q db).map fun r => r.1.chunkId).Nodup := by
  rw [lexicalRows_eq]
  refine nodup_filterMap_seen hk fun r p hp => ?_
  split at hp
  · obtain ⟨v, -, rfl⟩ := Option.map_eq_some_iff.mp hp
    rfl
  · cases hp

variable {n : Nat}

theorem semanticArm_eq (hsame : SameVisible q db db') (hk : db.Keyed) (hk' : db'.Keyed)
    (hties : ∀ a ∈ semanticRows e q db, ∀ b ∈ semanticRows e q db, a.2 = b.2 → a = b) :
    semanticArm e q db n = semanticArm e q db' n := by
  have hperm : (semanticRows e q db).Perm (semanticRows e q db') := by
    rw [semanticRows_eq, semanticRows_eq]
    exact (seen_perm hsame hk hk').filterMap _
  rw [semanticArm, semanticArm, Ranking.top_eq_of_perm hperm hties]

theorem lexicalArm_eq (hsame : SameVisible q db db') (hk : db.Keyed) (hk' : db'.Keyed)
    (hties : ∀ a ∈ lexicalRows e u casing q db, ∀ b ∈ lexicalRows e u casing q db,
      a.2 = b.2 → a = b) :
    lexicalArm e u casing q db n = lexicalArm e u casing q db' n := by
  have hperm : (lexicalRows e u casing q db).Perm (lexicalRows e u casing q db') := by
    rw [lexicalRows_eq, lexicalRows_eq]
    exact (seen_perm hsame hk hk').filterMap _
  rw [lexicalArm, lexicalArm, Ranking.top_eq_of_perm hperm
    fun a ha b hb h => hties a ha b hb (OrderDual.toDual.injective h)]

theorem nodup_semanticArm (hk : db.Keyed) :
    ((semanticArm e q db n).map SemanticRow.chunkId).Nodup := by
  rw [semanticArm, List.map_map]
  exact Ranking.nodup_top Prod.snd n (nodup_semanticRows hk)

theorem nodup_lexicalArm (hk : db.Keyed) :
    ((lexicalArm e u casing q db n).map LexicalRow.chunkId).Nodup := by
  rw [lexicalArm, List.map_map]
  exact Ranking.nodup_top (fun r : Chunk × Rat => OrderDual.toDual r.2) n (nodup_lexicalRows hk)

theorem seen_of_semanticArm {s : SemanticRow} (h : s ∈ semanticArm e q db n) :
    ∃ r ∈ seen q db, r.1.chunkId = s.chunkId := by
  obtain ⟨p, hp, rfl⟩ := List.mem_map.mp h
  obtain ⟨d, hd⟩ := mem_seen_of_semantic (Ranking.mem_of_mem_top hp)
  exact ⟨_, hd, rfl⟩

theorem seen_of_lexicalArm {l : LexicalRow} (h : l ∈ lexicalArm e u casing q db n) :
    ∃ r ∈ seen q db, r.1.chunkId = l.chunkId := by
  obtain ⟨p, hp, rfl⟩ := List.mem_map.mp h
  obtain ⟨d, hd⟩ := mem_seen_of_lexical (Ranking.mem_of_mem_top hp)
  exact ⟨_, hd, rfl⟩

end Arms

section Fusion

theorem seen_of_candidate {f : Fused} (hf : f ∈ candidates e cfg u casing q db) :
    ∃ r ∈ seen q db, r.1.chunkId = f.chunkId := by
  unfold candidates fuse at hf
  split at hf
  · obtain ⟨j, hj, rfl⟩ := List.mem_map.mp hf
    obtain ⟨hleft, hright⟩ := Ranking.mem_fullJoin hj
    cases j with
    | both s l => exact seen_of_semanticArm (hleft s rfl)
    | left s => exact seen_of_semanticArm (hleft s rfl)
    | right l => exact seen_of_lexicalArm (hright l rfl)
  · obtain ⟨s, hs, rfl⟩ := List.mem_map.mp hf
    exact seen_of_semanticArm hs
  · obtain ⟨l, hl, rfl⟩ := List.mem_map.mp hf
    exact seen_of_lexicalArm hl

theorem nodup_candidates (hk : db.Keyed) :
    ((candidates e cfg u casing q db).map Fused.chunkId).Nodup := by
  have hsem : ((semanticArm e q db (pool e cfg q)).map SemanticRow.chunkId).Nodup :=
    nodup_semanticArm hk
  have hlex : ((lexicalArm e u casing q db (pool e cfg q)).map LexicalRow.chunkId).Nodup :=
    nodup_lexicalArm hk
  unfold candidates fuse
  split
  · rw [List.map_map]
    exact Ranking.nodup_fullJoin hsem hlex
  · rw [List.map_map]
    exact hsem
  · rw [List.map_map]
    exact hlex

theorem candidates_eq (hsame : SameVisible q db db') (hk : db.Keyed) (hk' : db'.Keyed)
    (hties : NoTies e u casing q db) :
    candidates e cfg u casing q db = candidates e cfg u casing q db' := by
  unfold candidates fuse
  cases hmode : q.mode with
  | hybrid =>
    rw [semanticArm_eq hsame hk hk' (hties.semantic (by simp [hmode])),
      lexicalArm_eq hsame hk hk' (hties.lexical (by simp [hmode]))]
  | semantic => rw [semanticArm_eq hsame hk hk' (hties.semantic (by simp [hmode]))]
  | lexical => rw [lexicalArm_eq hsame hk hk' (hties.lexical (by simp [hmode]))]

/-- No arm's row is lost. -/
theorem semantic_candidate (hmode : q.mode ≠ .lexical) {s : SemanticRow}
    (hs : s ∈ semanticArm e q db (pool e cfg q)) : ∃ f ∈ candidates e cfg u casing q db,
      f.chunkId = s.chunkId ∧ f.semanticRank = some s.rank := by
  unfold candidates fuse
  cases hq : q.mode with
  | hybrid =>
    obtain ⟨j, hj, he⟩ := Ranking.exists_left (f := SemanticRow.chunkId)
      (g := LexicalRow.chunkId) (lexicalArm e u casing q db (pool e cfg q)) hs
    refine ⟨_, List.mem_map_of_mem hj, ?_, ?_⟩
    · cases j with
      | both a b | left a =>
        cases he
        rfl
      | right b => cases he
    · simp [fusedRow, he]
  | semantic => exact ⟨_, List.mem_map_of_mem hs, rfl, rfl⟩
  | lexical => exact absurd hq hmode

theorem lexical_candidate (hmode : q.mode ≠ .semantic) {l : LexicalRow}
    (hl : l ∈ lexicalArm e u casing q db (pool e cfg q)) : ∃ f ∈ candidates e cfg u casing q db,
      f.chunkId = l.chunkId ∧ f.lexicalRank = some l.rank := by
  unfold candidates fuse
  cases hq : q.mode with
  | hybrid =>
    obtain ⟨j, hj, he⟩ := Ranking.exists_right (f := SemanticRow.chunkId)
      (g := LexicalRow.chunkId) (semanticArm e q db (pool e cfg q)) hl
    have hkey : j.key SemanticRow.chunkId LexicalRow.chunkId = l.chunkId := by
      cases j with
      | both a b =>
        cases he
        show a.chunkId = l.chunkId
        exact Ranking.key_both hj
      | right b =>
        cases he
        rfl
      | left a => cases he
    exact ⟨_, List.mem_map_of_mem hj, hkey, by simp [fusedRow, he]⟩
  | lexical => exact ⟨_, List.mem_map_of_mem hl, rfl, rfl⟩
  | semantic => exact absurd hq hmode

end Fusion

section Rows

/-- The key of a chunk leads to it and to its document. -/
theorem rowOf_seen (hk : db.Keyed) {c : Chunk} {d : Document} (h : (c, d) ∈ seen q db)
    {f : Fused} (hf : c.chunkId = f.chunkId) : rowOf db f = some ⟨c, d, f⟩ := by
  obtain ⟨hc, hd, -⟩ := mem_seen.mp h
  have hlook : Table.lookup Chunk.chunkId db.chunks f.chunkId = some c := by
    cases hl : Table.lookup Chunk.chunkId db.chunks f.chunkId with
    | none => exact absurd hf (Table.lookup_eq_none_iff.mp hl c hc)
    | some c' =>
      have hid : c'.chunkId = c.chunkId := (Table.key_of_lookup hl).trans hf.symm
      rw [List.inj_on_of_nodup_map hk (Table.mem_of_lookup hl) hc hid]
  rw [rowOf, hlook, Option.bind_some, hd, Option.map_some]

/-- Each candidate has its row, with the chunk and the document that are seen. -/
theorem rowOf_candidate (hk : db.Keyed) {f : Fused} (hf : f ∈ candidates e cfg u casing q db) :
    ∃ c d, (c, d) ∈ seen q db ∧ c.chunkId = f.chunkId ∧ rowOf db f = some ⟨c, d, f⟩ := by
  obtain ⟨⟨c, d⟩, hr, he⟩ := seen_of_candidate hf
  exact ⟨c, d, hr, he, rowOf_seen hk hr he⟩

theorem mem_fusedRows (hk : db.Keyed) {r : Row}
    (h : r ∈ (candidates e cfg u casing q db).filterMap (rowOf db)) :
    (r.chunk, r.document) ∈ seen q db ∧ r.fused ∈ candidates e cfg u casing q db ∧
      r.chunk.chunkId = r.fused.chunkId := by
  obtain ⟨f, hf, hr⟩ := List.mem_filterMap.mp h
  obtain ⟨c, d, hcd, hid, hrow⟩ := rowOf_candidate hk hf
  obtain rfl := Option.some.inj (hr.symm.trans hrow)
  exact ⟨hcd, hf, hid⟩

theorem nodup_fusedRows (hk : db.Keyed) :
    (((candidates e cfg u casing q db).filterMap (rowOf db)).map
      fun r => r.chunk.chunkId).Nodup := by
  have hids : ((candidates e cfg u casing q db).map Fused.chunkId).Nodup := nodup_candidates hk
  have hrow : ∀ f ∈ candidates e cfg u casing q db, ∀ r, rowOf db f = some r →
      r.chunk.chunkId = f.chunkId := by
    intro f hf r hr
    obtain ⟨c, d, -, hid, hrow⟩ := rowOf_candidate hk hf
    obtain rfl := Option.some.inj (hr.symm.trans hrow)
    exact hid
  have hsub : (((candidates e cfg u casing q db).filterMap (rowOf db)).map
      fun r => r.chunk.chunkId).Sublist ((candidates e cfg u casing q db).map Fused.chunkId) := by
    clear hids
    generalize candidates e cfg u casing q db = fs at hrow ⊢
    induction fs with
    | nil => exact List.Sublist.slnil
    | cons f fs ih =>
      have hrest := ih fun g hg => hrow g (List.mem_cons_of_mem f hg)
      cases hr : rowOf db f with
      | none => simpa [hr] using hrest.cons f.chunkId
      | some r => simpa [hr, hrow f List.mem_cons_self r hr] using hrest
  exact hids.sublist hsub

theorem rows_eq (hsame : SameVisible q db db') (hk : db.Keyed) (hk' : db'.Keyed)
    (hties : NoTies e u casing q db) :
    rows e cfg u casing q db = rows e cfg u casing q db' := by
  have hrow : (candidates e cfg u casing q db).filterMap (rowOf db) =
      (candidates e cfg u casing q db).filterMap (rowOf db') := by
    refine List.filterMap_congr fun f hf => ?_
    obtain ⟨c, d, hcd, hid, hrow⟩ := rowOf_candidate hk hf
    rw [hrow, rowOf_seen hk' (mem_seen_of_same hsame hcd) hid]
  rw [rows, rows, hrow, candidates_eq hsame hk hk' hties]

theorem mem_rows (hk : db.Keyed) {r : Row} (h : r ∈ rows e cfg u casing q db) :
    (r.chunk, r.document) ∈ seen q db :=
  (mem_fusedRows hk ((Ranking.orderBy_perm _ _).mem_iff.mp (List.mem_of_mem_take h))).1

theorem nodup_rows (hk : db.Keyed) :
    ((rows e cfg u casing q db).map fun r => r.chunk.chunkId).Nodup := by
  have hperm := Ranking.orderBy_perm fusionOrder
    ((candidates e cfg u casing q db).filterMap (rowOf db))
  have hnd := (hperm.map fun r => r.chunk.chunkId).nodup_iff.mpr (nodup_fusedRows hk)
  exact hnd.sublist ((List.take_sublist _ _).map _)

variable {rr : Option Reranker} {query : Text} {limit : Nat} {rs : List Row}

/-- Reordering keeps the best of the rows and makes up none. -/
theorem rerankRows_rows (rs : List Row) : ∃ ordered : List Row, ordered.Perm rs ∧
    (rerankRows cfg rr query rs limit).map Prod.fst = ordered.take limit := by
  have hsame : ((rs.take limit).map fun r => (r, (none : Option (Rat × Nat)))).map Prod.fst =
      rs.take limit := by
    rw [List.map_map]
    exact List.map_id _
  unfold rerankRows
  cases rr with
  | none => exact ⟨rs, .refl rs, hsame⟩
  | some reranker =>
    dsimp only
    split
    · exact ⟨rs, .refl rs, hsame⟩
    · split
      · exact ⟨rs, .refl rs, hsame⟩
      · rename_i scores _
        split
        · exact ⟨rs, .refl rs, hsame⟩
        · rename_i hlen
          have hzip : ((rs.zip scores).zipIdx 1).map (fun p => p.1.1) = rs := by
            have hfst : ((rs.zip scores).zipIdx 1).map (fun p => p.1.1) =
                (((rs.zip scores).zipIdx 1).map Prod.fst).map Prod.fst := by
              rw [List.map_map]
              rfl
            rw [hfst, List.zipIdx_map_fst]
            exact List.map_fst_zip (Nat.le_of_eq (not_not.mp hlen).symm)
          refine ⟨_, ((Ranking.orderBy_perm rerankOrder _).map _).trans (.of_eq hzip), ?_⟩
          rw [List.map_map, ← List.map_take]
          rfl

/-- What the search returns is cut from the rows of the statement. -/
theorem search_rows (e : SearchEngine) (cfg : SearchSettings) (u : Unicode) (casing : Casing)
    (q : SearchRequest) (db : Corpus) : ∃ kept : List (Row × Option (Rat × Nat)),
      (search e cfg u casing q db).1 = kept.map (rankedChunk e) ∧
      ∃ ordered : List Row, ordered.Perm (rows e cfg u casing q db) ∧
        kept.map Prod.fst = ordered.take q.limit :=
  ⟨_, rfl, rerankRows_rows _⟩

end Rows

/-- Every passage is visible to the viewer and appears once. -/
structure Confined (q : SearchRequest) (db : Corpus) (results : List RankedChunk) : Prop where
  visible : ∀ r ∈ results, ∃ c ∈ db.chunks, ∃ d ∈ db.documents.rows, visible q [] d = true ∧
    c.documentId = d.id ∧ r.chunkId = c.chunkId ∧ r.documentId = d.id ∧
    r.text = c.passage.text.toList ∧ r.filename = d.filename.toList
  once : (results.map fun r => r.chunkId).Nodup

theorem search_confined (hk : db.Keyed) : Confined q db (search e cfg u casing q db).1 := by
  obtain ⟨kept, hres, ordered, hperm, hkept⟩ := search_rows e cfg u casing q db
  constructor
  · intro r hr
    rw [hres] at hr
    obtain ⟨p, hp, rfl⟩ := List.mem_map.mp hr
    have hp1 : p.1 ∈ ordered.take q.limit := hkept ▸ List.mem_map_of_mem hp
    have hseen := mem_rows hk (hperm.mem_iff.mp (List.mem_of_mem_take hp1))
    obtain ⟨hc, hd, hv⟩ := mem_seen.mp hseen
    have hid := Documents.get_id hd
    exact ⟨_, hc, _, Documents.mem_of_get hd, hv, hid.symm, rfl, hid.symm, rfl, rfl⟩
  · have hids : ((search e cfg u casing q db).1.map fun r => r.chunkId) =
        (ordered.take q.limit).map fun r => r.chunk.chunkId := by
      rw [hres, ← hkept, List.map_map, List.map_map]
      rfl
    have hnd := (hperm.map fun r => r.chunk.chunkId).nodup_iff.mpr (nodup_rows hk)
    rw [hids]
    exact hnd.sublist ((List.take_sublist _ _).map _)

/-- What a viewer may not see changes nothing of what is returned to them. -/
theorem search_noninterferes (e : SearchEngine) (cfg : SearchSettings) (u : Unicode)
    (casing : Casing) (q : SearchRequest) (hk : db.Keyed) (hk' : db'.Keyed)
    (hsame : SameVisible q db db') (hties : NoTies e u casing q db) :
    search e cfg u casing q db = search e cfg u casing q db' ∧
      Confined q db (search e cfg u casing q db).1 ∧
      (q.mode ≠ .lexical → ∀ s ∈ semanticArm e q db (pool e cfg q),
        ∃ f ∈ candidates e cfg u casing q db,
          f.chunkId = s.chunkId ∧ f.semanticRank = some s.rank) ∧
      (q.mode ≠ .semantic → ∀ l ∈ lexicalArm e u casing q db (pool e cfg q),
        ∃ f ∈ candidates e cfg u casing q db,
          f.chunkId = l.chunkId ∧ f.lexicalRank = some l.rank) := by
  refine ⟨?_, search_confined hk, fun hm _ hs => semantic_candidate hm hs,
    fun hm _ hl => lexical_candidate hm hl⟩
  rw [search, search, rows_eq hsame hk hk' hties]

def wordsEngine : SearchEngine where
  modelName := "words"
  embedQuery _ := [1]
  cosineDistance v _ := 1 - v.sum
  bm25 _ _ c := if c.passage.text = "" then none else some c.charCount
  reranker := none
  countTokens := List.length
  maxSequenceTokens := 512

def plainSettings : SearchSettings where
  rerankCandidates := 50
  rerankMaxChars := 900

def anySearch : SearchRequest where
  query := "limits".toList
  userId := some 7
  isAdmin := false
  limit := 5
  mode := .hybrid
  rerank := none
  documentIds := []

def passageOf (chunkId : ChunkId) (id : DocumentId) (text : String) (v : Option EmbeddingVector) :
    Chunk where
  chunkId := chunkId
  documentId := id
  passage := { index := 0, text, pageNumber := none, sectionHeading := none, isTable := false,
               scale := "section" }
  charCount := text.length
  documentTitle := none
  embedding := v

def openDocument : Document :=
  { UploadService.received 0 "memo.pdf" [37] plainRequest "application/pdf" with
    status := .live, classification := some .public }

def closedDocument : Document :=
  { UploadService.received 1 "note.pdf" [37] plainRequest "application/pdf" with
    status := .live, classification := some .restricted, ownerId := some 8 }

def openCorpus : Corpus where
  documents := ⟨[openDocument], by decide, by decide⟩
  chunks := [passageOf 0 0 "limits" (some [1]), passageOf 1 0 "dates" (some [0])]

/-- With a nearer passage that the viewer may not see. -/
def closedCorpus : Corpus where
  documents := ⟨[closedDocument, openDocument], by decide, by decide⟩
  chunks := [passageOf 2 1 "limits!" (some [2]), passageOf 0 0 "limits" (some [1]),
    passageOf 1 0 "dates" (some [0])]

theorem closed_corpus_same : SameVisible anySearch openCorpus closedCorpus := by
  have hclosed : visible anySearch [] closedDocument = false := by decide
  constructor
  · intro d hv
    have hne : d ≠ closedDocument := by
      rintro rfl
      rw [hclosed] at hv
      cases hv
    simp [openCorpus, closedCorpus, hne]
  · intro d hd _ c hc
    obtain rfl : d = openDocument := by simpa [openCorpus] using hd
    have hne : c ≠ passageOf 2 1 "limits!" (some [2]) := by
      rintro rfl
      cases hc
    simp [openCorpus, closedCorpus, hne]

theorem closed_corpus_unseen :
    search wordsEngine plainSettings ascii ⟨Char.isUpper, List.map Char.toLower⟩ anySearch
      openCorpus =
    search wordsEngine plainSettings ascii ⟨Char.isUpper, List.map Char.toLower⟩ anySearch
      closedCorpus :=
  (search_noninterferes wordsEngine plainSettings ascii ⟨Char.isUpper, List.map Char.toLower⟩
    anySearch (by decide) (by decide) closed_corpus_same
    ⟨fun _ => by decide +kernel, fun _ => by decide +kernel⟩).1

end RetrievalService

end KnowledgeBase
