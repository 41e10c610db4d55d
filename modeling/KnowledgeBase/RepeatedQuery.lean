import KnowledgeBase.RankTies
import KnowledgeBase.VisibleSearch

/-! Whether a repeated query returns a repeated list. The last order of the statement is total,
but the rows of each arm are numbered by a distance or a score alone. -/

namespace KnowledgeBase

/-- The same rows, lying in another order. -/
structure Corpus.SameRows (db db' : Corpus) : Prop where
  chunks : db'.chunks.Perm db.chunks
  documents : db'.documents.rows.Perm db.documents.rows

namespace RetrievalService

open Ranking

variable (e : SearchEngine) (cfg : SearchSettings) (u : Unicode) (casing : Casing)
  (q : SearchRequest) (db : Corpus)

def bestFirst (r : Chunk × Rat) : Ratᵒᵈ := OrderDual.toDual r.2

def rowId (r : Chunk × Rat) : ChunkId := r.1.chunkId

section Choices

def semanticOf (numbered : List ((Chunk × Rat) × Nat)) : List SemanticRow :=
  numbered.map fun p => { chunkId := p.1.1.chunkId, rank := p.2, similarity := 1 - p.1.2 }

def lexicalOf (numbered : List ((Chunk × Rat) × Nat)) : List LexicalRow :=
  numbered.map fun p => { chunkId := p.1.1.chunkId, rank := p.2 }

/-- The candidates, with their chunks and documents, of arms numbered one way. -/
def rowsOf (sem lex : List ((Chunk × Rat) × Nat)) : List Row :=
  (fuse q.mode (semanticOf sem) (lexicalOf lex)).filterMap (rowOf db)

/-- The passages returned, with the rows of each arm in one order. -/
def passagesOf (s l : List (Chunk × Rat)) : List RankedChunk :=
  (rerankRows cfg (reranker e q) q.query
    ((orderBy fusionOrder (rowsOf q db (cut (pool e cfg q) s) (cut (pool e cfg q) l))).take
      (fetch e cfg q)) q.limit).map (rankedChunk e)

/-- However the database orders the rows that tie, the list returned is the same. -/
def Repeatable : Prop :=
  ∀ s l s' l' : List (Chunk × Rat),
    Orders Prod.snd (semanticRows e q db) s → Orders Prod.snd (semanticRows e q db) s' →
    Orders bestFirst (lexicalRows e u casing q db) l →
    Orders bestFirst (lexicalRows e u casing q db) l' →
      passagesOf e cfg q db s l = passagesOf e cfg q db s' l'

/-- However the rows lie, the list returned is the same. -/
def SameInAnyOrder : Prop :=
  ∀ db', db.SameRows db' → (search e cfg u casing q db').1 = (search e cfg u casing q db).1

/-- The passage ties in an arm that runs, before the arm's cut. -/
def Contested (id : ChunkId) : Prop :=
  (q.mode ≠ .lexical ∧
    Ranking.Contested Prod.snd rowId (pool e cfg q) (semanticRows e q db) id) ∨
  (q.mode ≠ .semantic ∧
    Ranking.Contested bestFirst rowId (pool e cfg q) (lexicalRows e u casing q db) id)

instance (id : ChunkId) : Decidable (Contested e cfg u casing q db id) :=
  inferInstanceAs (Decidable (_ ∨ _))

/-- The candidates, each where it stands if it comes first of its ties. -/
def bestRows : List Row :=
  rowsOf q db (ranked Prod.snd (pool e cfg q) (semanticRows e q db))
    (ranked bestFirst (pool e cfg q) (lexicalRows e u casing q db))

def sureRows : List Row :=
  (bestRows e cfg u casing q db).filter fun r => ¬ Contested e cfg u casing q db r.chunk.chunkId

/-- Before a passage that ties, at its best, stands a full page of passages that do not. -/
def Settled : Prop :=
  ∀ r ∈ bestRows e cfg u casing q db, Contested e cfg u casing q db r.chunk.chunkId →
    q.limit ≤ (sureRows e cfg u casing q db).countP fun r' => fusionOrder r' < fusionOrder r

instance : Decidable (Settled e cfg u casing q db) :=
  inferInstanceAs (Decidable (∀ r ∈ bestRows e cfg u casing q db, _ → _))

end Choices

variable {e cfg u casing q db} {db' : Corpus} {sem lex : List ((Chunk × Rat) × Nat)}
  {s l : List (Chunk × Rat)} {r : Row} {x : ChunkId}

section Found

/-- What the semantic arm has on a chunk, where the arm runs. -/
def semanticAt (q : SearchRequest) (sem : List ((Chunk × Rat) × Nat)) (x : ChunkId) :
    Option SemanticRow :=
  if q.mode = .lexical then none
  else (numberOf rowId sem x).map fun p =>
    { chunkId := p.1.1.chunkId, rank := p.2, similarity := 1 - p.1.2 }

def lexicalAt (q : SearchRequest) (lex : List ((Chunk × Rat) × Nat)) (x : ChunkId) :
    Option LexicalRow :=
  if q.mode = .semantic then none
  else (numberOf rowId lex x).map fun p => { chunkId := p.1.1.chunkId, rank := p.2 }

theorem lookup_semanticOf (sem : List ((Chunk × Rat) × Nat)) (x : ChunkId) :
    Table.lookup SemanticRow.chunkId (semanticOf sem) x = (numberOf rowId sem x).map fun p =>
      { chunkId := p.1.1.chunkId, rank := p.2, similarity := 1 - p.1.2 } :=
  Table.lookup_map _ _ _

theorem lookup_lexicalOf (lex : List ((Chunk × Rat) × Nat)) (x : ChunkId) :
    Table.lookup LexicalRow.chunkId (lexicalOf lex) x = (numberOf rowId lex x).map fun p =>
      { chunkId := p.1.1.chunkId, rank := p.2 } :=
  Table.lookup_map _ _ _

theorem semanticAt_key {row : SemanticRow} (h : semanticAt q sem x = some row) :
    row.chunkId = x := by
  unfold semanticAt at h
  split at h
  · cases h
  · obtain ⟨p, hp, rfl⟩ := Option.map_eq_some_iff.mp h
    exact numberOf_id hp

theorem lexicalAt_key {row : LexicalRow} (h : lexicalAt q lex x = some row) : row.chunkId = x := by
  unfold lexicalAt at h
  split at h
  · cases h
  · obtain ⟨p, hp, rfl⟩ := Option.map_eq_some_iff.mp h
    exact numberOf_id hp

/-- A candidate is what the arms that run have on its chunk. -/
theorem mem_fuse (hs : (sem.map fun p => rowId p.1).Nodup) (hl : (lex.map fun p => rowId p.1).Nodup)
    {f : Fused} : f ∈ fuse q.mode (semanticOf sem) (lexicalOf lex) ↔
      ((semanticAt q sem f.chunkId).isSome = true ∨ (lexicalAt q lex f.chunkId).isSome = true) ∧
        f = fusedRow f.chunkId (semanticAt q sem f.chunkId) (lexicalAt q lex f.chunkId) := by
  have hs' : ((semanticOf sem).map SemanticRow.chunkId).Nodup := by
    rw [semanticOf, List.map_map]
    exact hs
  have hl' : ((lexicalOf lex).map LexicalRow.chunkId).Nodup := by
    rw [lexicalOf, List.map_map]
    exact hl
  cases hmode : q.mode with
  | hybrid =>
    have hsem : ∀ y, Table.lookup SemanticRow.chunkId (semanticOf sem) y = semanticAt q sem y := by
      intro y
      rw [lookup_semanticOf, semanticAt, if_neg (by simp [hmode])]
    have hlex : ∀ y, Table.lookup LexicalRow.chunkId (lexicalOf lex) y = lexicalAt q lex y := by
      intro y
      rw [lookup_lexicalOf, lexicalAt, if_neg (by simp [hmode])]
    rw [fuse, List.mem_map]
    constructor
    · rintro ⟨j, hj, rfl⟩
      obtain ⟨hleft, hright⟩ := (mem_fullJoin_iff hs' hl').mp hj
      rw [hsem] at hleft
      rw [hlex] at hright
      refine ⟨?_, ?_⟩
      · simp only [fusedRow, ← hleft, ← hright]
        cases j <;> simp [Joined.left?, Joined.right?]
      · conv_lhs => rw [hleft, hright]
        rfl
    · rintro ⟨hsome, hf⟩
      have hjoin : ∀ j : Joined SemanticRow LexicalRow,
          j.key SemanticRow.chunkId LexicalRow.chunkId = f.chunkId →
          j.left? = semanticAt q sem f.chunkId → j.right? = lexicalAt q lex f.chunkId →
          ∃ j ∈ fullJoin SemanticRow.chunkId LexicalRow.chunkId (semanticOf sem) (lexicalOf lex),
            fusedRow (j.key SemanticRow.chunkId LexicalRow.chunkId) j.left? j.right? = f := by
        intro j hkey hleft hright
        refine ⟨j, (mem_fullJoin_iff hs' hl').mpr ⟨?_, ?_⟩, ?_⟩
        · rw [hsem, hkey, hleft]
        · rw [hlex, hkey, hright]
        · rw [hkey, hleft, hright, ← hf]
      cases hsa : semanticAt q sem f.chunkId with
      | some row =>
        have hkey := semanticAt_key hsa
        cases hla : lexicalAt q lex f.chunkId with
        | some row' => exact hjoin (.both row row') hkey hsa.symm hla.symm
        | none => exact hjoin (.left row) hkey hsa.symm hla.symm
      | none =>
        cases hla : lexicalAt q lex f.chunkId with
        | some row' => exact hjoin (.right row') (lexicalAt_key hla) hsa.symm hla.symm
        | none => simp [hsa, hla] at hsome
  | semantic =>
    have hsem : ∀ y, Table.lookup SemanticRow.chunkId (semanticOf sem) y = semanticAt q sem y := by
      intro y
      rw [lookup_semanticOf, semanticAt, if_neg (by simp [hmode])]
    have hlex : lexicalAt q lex f.chunkId = none := by rw [lexicalAt, if_pos hmode]
    rw [fuse, List.mem_map, hlex]
    constructor
    · rintro ⟨row, hrow, rfl⟩
      have hat : semanticAt q sem row.chunkId = some row := by
        rw [← hsem, Table.lookup_eq_some_iff hs']
        exact ⟨hrow, rfl⟩
      simp [fusedRow, hat]
    · rintro ⟨hsome, hf⟩
      obtain ⟨row, hrow⟩ := Option.isSome_iff_exists.mp (hsome.resolve_right (by simp))
      have hmem := hrow
      rw [← hsem, Table.lookup_eq_some_iff hs'] at hmem
      refine ⟨row, hmem.1, ?_⟩
      rw [hmem.2, ← hrow, ← hf]
  | lexical =>
    have hsem : semanticAt q sem f.chunkId = none := by rw [semanticAt, if_pos hmode]
    have hlex : ∀ y, Table.lookup LexicalRow.chunkId (lexicalOf lex) y = lexicalAt q lex y := by
      intro y
      rw [lookup_lexicalOf, lexicalAt, if_neg (by simp [hmode])]
    rw [fuse, List.mem_map, hsem]
    constructor
    · rintro ⟨row, hrow, rfl⟩
      have hat : lexicalAt q lex row.chunkId = some row := by
        rw [← hlex, Table.lookup_eq_some_iff hl']
        exact ⟨hrow, rfl⟩
      simp [fusedRow, hat]
    · rintro ⟨hsome, hf⟩
      obtain ⟨row, hrow⟩ := Option.isSome_iff_exists.mp (hsome.resolve_left (by simp))
      have hmem := hrow
      rw [← hlex, Table.lookup_eq_some_iff hl'] at hmem
      refine ⟨row, hmem.1, ?_⟩
      rw [hmem.2, ← hrow, ← hf]

end Found

section Rows

theorem chunkId_rowOf {f : Fused} (h : rowOf db f = some r) : r.chunk.chunkId = f.chunkId ∧ r.fused = f := by
  obtain ⟨c, hc, h⟩ := Option.bind_eq_some_iff.mp h
  obtain ⟨d, -, rfl⟩ := Option.map_eq_some_iff.mp h
  exact ⟨Table.key_of_lookup hc, rfl⟩

theorem chunk_mem_of_rowOf {f : Fused} (h : rowOf db f = some r) : r.chunk ∈ db.chunks := by
  obtain ⟨c, hc, h⟩ := Option.bind_eq_some_iff.mp h
  obtain ⟨d, -, rfl⟩ := Option.map_eq_some_iff.mp h
  exact Table.mem_of_lookup hc

/-- The chunk and the document come from the key alone. -/
theorem rowOf_fused {f f' : Fused} (h : rowOf db f = some r) (hid : r.chunk.chunkId = f'.chunkId) :
    rowOf db f' = some { r with fused := f' } := by
  have hkey := (chunkId_rowOf h).1
  obtain ⟨c, hc, h⟩ := Option.bind_eq_some_iff.mp h
  obtain ⟨d, hd, rfl⟩ := Option.map_eq_some_iff.mp h
  rw [rowOf, ← hid, hkey, hc, Option.bind_some, hd]
  rfl

theorem mem_rowsOf (hs : (sem.map fun p => rowId p.1).Nodup)
    (hl : (lex.map fun p => rowId p.1).Nodup) : r ∈ rowsOf q db sem lex ↔
      rowOf db r.fused = some r ∧
      ((semanticAt q sem r.chunk.chunkId).isSome = true ∨
        (lexicalAt q lex r.chunk.chunkId).isSome = true) ∧
      r.fused = fusedRow r.chunk.chunkId (semanticAt q sem r.chunk.chunkId)
        (lexicalAt q lex r.chunk.chunkId) := by
  rw [rowsOf, List.mem_filterMap]
  constructor
  · rintro ⟨f, hf, hrow⟩
    obtain ⟨hid, rfl⟩ := chunkId_rowOf hrow
    rw [hid]
    exact ⟨hrow, (mem_fuse hs hl).mp hf⟩
  · rintro ⟨hrow, hsome, hf⟩
    obtain ⟨hid, -⟩ := chunkId_rowOf hrow
    rw [hid] at hsome hf
    exact ⟨r.fused, (mem_fuse hs hl).mpr ⟨hsome, hf⟩, hrow⟩

theorem nodup_fuse (hs : (sem.map fun p => rowId p.1).Nodup)
    (hl : (lex.map fun p => rowId p.1).Nodup) :
    ((fuse q.mode (semanticOf sem) (lexicalOf lex)).map Fused.chunkId).Nodup := by
  have hs' : ((semanticOf sem).map SemanticRow.chunkId).Nodup := by
    rw [semanticOf, List.map_map]
    exact hs
  have hl' : ((lexicalOf lex).map LexicalRow.chunkId).Nodup := by
    rw [lexicalOf, List.map_map]
    exact hl
  unfold fuse
  split
  · rw [List.map_map]
    exact nodup_fullJoin hs' hl'
  · rw [List.map_map]
    exact hs'
  · rw [List.map_map]
    exact hl'

/-- The last order tells any two candidates apart. -/
theorem distinct_rowsOf (hs : (sem.map fun p => rowId p.1).Nodup)
    (hl : (lex.map fun p => rowId p.1).Nodup) : Distinct fusionOrder (rowsOf q db sem lex) := by
  have hsub : ((rowsOf q db sem lex).map fun r => r.chunk.chunkId).Sublist
      ((fuse q.mode (semanticOf sem) (lexicalOf lex)).map Fused.chunkId) :=
    Table.map_filterMap_sublist fun f _ r hr => (chunkId_rowOf hr).1
  have hids := (nodup_fuse hs hl).sublist hsub
  have hsnd : (rowsOf q db sem lex).map (fun r => r.chunk.chunkId) =
      ((rowsOf q db sem lex).map fusionOrder).map fun k => (ofLex k).2 := by
    rw [List.map_map]
    rfl
  rw [hsnd] at hids
  exact hids.of_map

theorem fusionOrder_le {r b : Row} (hid : b.chunk.chunkId = r.chunk.chunkId)
    (hscore : r.fused.score ≤ b.fused.score) : fusionOrder b ≤ fusionOrder r := by
  rw [fusionOrder, fusionOrder, hid, Prod.Lex.toLex_le_toLex]
  rcases hscore.lt_or_eq with hlt | heq
  · exact .inl (OrderDual.toDual_lt_toDual.mpr hlt)
  · exact .inr ⟨by rw [heq], le_refl _⟩

theorem contribution_nonneg (rank : Option Nat) : 0 ≤ contribution rank := by
  cases rank with
  | none => exact le_refl _
  | some rank =>
    rw [contribution]
    positivity

theorem contribution_anti {i k : Nat} (h : k ≤ i) :
    contribution (some i) ≤ contribution (some k) := by
  have hk : (k : Rat) ≤ i := by exact_mod_cast h
  have hpos : (0 : Rat) < (rrfK : Rat) + k := by
    have : (0 : Rat) < rrfK := by norm_num [rrfK]
    positivity
  exact one_div_le_one_div_of_le hpos (by linarith)

end Rows

section Sufficient

variable {n : Nat}

theorem nodup_semantic (hk : db.Keyed) : ((semanticRows e q db).map rowId).Nodup :=
  nodup_semanticRows hk

theorem nodup_lexical (hk : db.Keyed) : ((lexicalRows e u casing q db).map rowId).Nodup :=
  nodup_lexicalRows hk

/-- In an arm no passage does better than where it comes first of its ties. -/
theorem semanticAt_le {rows : List (Chunk × Rat)} (hnd : (rows.map rowId).Nodup)
    (ho : Orders Prod.snd rows s) (x : ChunkId) :
    ((semanticAt q (cut n s) x).isSome = true →
      (semanticAt q (ranked Prod.snd n rows) x).isSome = true) ∧
    contribution ((semanticAt q (cut n s) x).map SemanticRow.rank) ≤
      contribution ((semanticAt q (ranked Prod.snd n rows) x).map SemanticRow.rank) := by
  unfold semanticAt
  split
  · simp
  · cases hc : numberOf rowId (cut n s) x with
    | none => exact ⟨by simp, contribution_nonneg _⟩
    | some p =>
      obtain ⟨k, hk, hr⟩ := numberOf_le hnd ho hc
      simp [hr, contribution_anti hk]

theorem lexicalAt_le {rows : List (Chunk × Rat)} (hnd : (rows.map rowId).Nodup)
    (ho : Orders bestFirst rows l) (x : ChunkId) :
    ((lexicalAt q (cut n l) x).isSome = true →
      (lexicalAt q (ranked bestFirst n rows) x).isSome = true) ∧
    contribution ((lexicalAt q (cut n l) x).map LexicalRow.rank) ≤
      contribution ((lexicalAt q (ranked bestFirst n rows) x).map LexicalRow.rank) := by
  unfold lexicalAt
  split
  · simp
  · cases hc : numberOf rowId (cut n l) x with
    | none => exact ⟨by simp, contribution_nonneg _⟩
    | some p =>
      obtain ⟨k, hk, hr⟩ := numberOf_le hnd ho hc
      simp [hr, contribution_anti hk]

/-- A passage that does not tie stands where it stands at its best. -/
theorem semanticAt_sure (hk : db.Keyed) (ho : Orders Prod.snd (semanticRows e q db) s)
    (hx : ¬ Contested e cfg u casing q db x) :
    semanticAt q (cut (pool e cfg q) s) x =
      semanticAt q (ranked Prod.snd (pool e cfg q) (semanticRows e q db)) x := by
  unfold semanticAt
  split
  · rfl
  · rename_i hmode
    rw [numberOf_eq (nodup_semantic hk) ho fun h => hx (.inl ⟨hmode, h⟩)]

theorem lexicalAt_sure (hk : db.Keyed) (ho : Orders bestFirst (lexicalRows e u casing q db) l)
    (hx : ¬ Contested e cfg u casing q db x) :
    lexicalAt q (cut (pool e cfg q) l) x =
      lexicalAt q (ranked bestFirst (pool e cfg q) (lexicalRows e u casing q db)) x := by
  unfold lexicalAt
  split
  · rfl
  · rename_i hmode
    rw [numberOf_eq (nodup_lexical hk) ho fun h => hx (.inr ⟨hmode, h⟩)]

theorem mem_bestRows (hk : db.Keyed) : r ∈ bestRows e cfg u casing q db ↔
    rowOf db r.fused = some r ∧
    ((semanticAt q (ranked Prod.snd (pool e cfg q) (semanticRows e q db))
        r.chunk.chunkId).isSome = true ∨
      (lexicalAt q (ranked bestFirst (pool e cfg q) (lexicalRows e u casing q db))
        r.chunk.chunkId).isSome = true) ∧
    r.fused = fusedRow r.chunk.chunkId
      (semanticAt q (ranked Prod.snd (pool e cfg q) (semanticRows e q db)) r.chunk.chunkId)
      (lexicalAt q (ranked bestFirst (pool e cfg q) (lexicalRows e u casing q db))
        r.chunk.chunkId) :=
  mem_rowsOf (nodup_ranked (nodup_semantic hk)) (nodup_ranked (nodup_lexical hk))

theorem mem_rowsOf_sure (hk : db.Keyed) (hs : Orders Prod.snd (semanticRows e q db) s)
    (hl : Orders bestFirst (lexicalRows e u casing q db) l)
    (hr : ¬ Contested e cfg u casing q db r.chunk.chunkId) :
    r ∈ rowsOf q db (cut (pool e cfg q) s) (cut (pool e cfg q) l) ↔
      r ∈ bestRows e cfg u casing q db := by
  rw [mem_rowsOf (nodup_cut (nodup_semantic hk) hs) (nodup_cut (nodup_lexical hk) hl),
    mem_bestRows hk, semanticAt_sure hk hs hr, lexicalAt_sure hk hl hr]

/-- Where nothing that ties comes near the page, the page is that of the passages that do not. -/
theorem take_rowsOf (hk : db.Keyed) (hset : Settled e cfg u casing q db)
    (hs : Orders Prod.snd (semanticRows e q db) s)
    (hl : Orders bestFirst (lexicalRows e u casing q db) l) :
    (orderBy fusionOrder (rowsOf q db (cut (pool e cfg q) s) (cut (pool e cfg q) l))).take q.limit =
      (orderBy fusionOrder (sureRows e cfg u casing q db)).take q.limit := by
  have hns : ((cut (pool e cfg q) s).map fun p => rowId p.1).Nodup := nodup_cut (nodup_semantic hk) hs
  have hnl : ((cut (pool e cfg q) l).map fun p => rowId p.1).Nodup := nodup_cut (nodup_lexical hk) hl
  have hbest : Distinct fusionOrder (bestRows e cfg u casing q db) :=
    distinct_rowsOf (nodup_ranked (nodup_semantic hk)) (nodup_ranked (nodup_lexical hk))
  have hsure : Distinct fusionOrder (sureRows e cfg u casing q db) :=
    List.Nodup.sublist (List.filter_sublist.map _) hbest
  apply take_orderBy_eq (distinct_rowsOf hns hnl) hsure
  · intro r hr
    obtain ⟨hbest, hr⟩ := List.mem_filter.mp hr
    exact (mem_rowsOf_sure hk hs hl (of_decide_eq_true hr)).mpr hbest
  · intro r hr hnot
    have hcon : Contested e cfg u casing q db r.chunk.chunkId := by
      by_contra hcon
      exact hnot (List.mem_filter.mpr
        ⟨(mem_rowsOf_sure hk hs hl hcon).mp hr, decide_eq_true hcon⟩)
    obtain ⟨hrow, hsome, hfused⟩ := (mem_rowsOf hns hnl).mp hr
    obtain ⟨hsems, hsemle⟩ := semanticAt_le (q := q) (n := pool e cfg q) (nodup_semantic hk) hs
      r.chunk.chunkId
    obtain ⟨hlexs, hlexle⟩ := lexicalAt_le (q := q) (n := pool e cfg q) (nodup_lexical hk) hl
      r.chunk.chunkId
    -- the same passage at its best
    obtain ⟨b, hb, hid, hscore⟩ : ∃ b ∈ bestRows e cfg u casing q db,
        b.chunk.chunkId = r.chunk.chunkId ∧ r.fused.score ≤ b.fused.score := by
      let f := fusedRow r.chunk.chunkId
        (semanticAt q (ranked Prod.snd (pool e cfg q) (semanticRows e q db)) r.chunk.chunkId)
        (lexicalAt q (ranked bestFirst (pool e cfg q) (lexicalRows e u casing q db))
          r.chunk.chunkId)
      have hid := (chunkId_rowOf hrow).1
      refine ⟨{ r with fused := f }, (mem_bestRows hk).mpr ⟨?_, ?_, rfl⟩, rfl, ?_⟩
      · exact rowOf_fused hrow rfl
      · exact hsome.imp hsems hlexs
      · rw [hfused]
        exact add_le_add hsemle hlexle
    refine (hset b hb (hid ▸ hcon)).trans (List.countP_mono_left fun c _ hc => ?_)
    exact decide_eq_true ((of_decide_eq_true hc).trans_le (fusionOrder_le hid hscore))

theorem passagesOf_off (hoff : reranker e q = none) (s l : List (Chunk × Rat)) :
    passagesOf e cfg q db s l =
      ((orderBy fusionOrder (rowsOf q db (cut (pool e cfg q) s) (cut (pool e cfg q) l))).take
        q.limit).map fun r => rankedChunk e (r, none) := by
  have hfetch : fetch e cfg q = q.limit := by simp [fetch, hoff]
  rw [passagesOf, hoff, hfetch, rerankRows, List.take_take, Nat.min_self, List.map_map]
  rfl

theorem repeatable_of_settled (hk : db.Keyed) (hoff : reranker e q = none)
    (hset : Settled e cfg u casing q db) : Repeatable e cfg u casing q db := by
  intro s l s' l' hs hs' hl hl'
  rw [passagesOf_off hoff, passagesOf_off hoff, take_rowsOf hk hset hs hl,
    take_rowsOf hk hset hs' hl']

end Sufficient

section Physical

theorem rowOf_sameRows (h : db.SameRows db') (hk : db.Keyed) : rowOf db' = rowOf db := by
  funext f
  have hget : ∀ id, db'.documents.get id = db.documents.get id :=
    Table.lookup_perm db.documents.ids h.documents
  rw [rowOf, rowOf, Table.lookup_perm hk h.chunks]
  simp only [hget]

/-- What the semantic arm makes of one chunk. -/
def semanticEntry (e : SearchEngine) (q : SearchRequest) (t : Documents) (c : Chunk) :
    Option (Chunk × Rat) :=
  (t.get c.documentId).bind fun d =>
    if visible q q.documentIds d then
      c.embedding.map fun v => (c, e.cosineDistance v (e.embedQuery q.query))
    else none

def lexicalEntry (e : SearchEngine) (u : Unicode) (casing : Casing) (q : SearchRequest)
    (t : Documents) (c : Chunk) : Option (Chunk × Rat) :=
  (t.get c.documentId).bind fun d =>
    if visible q [] d && inScope q.documentIds c.documentId then
      (e.bm25 (LexicalQuery.lexicalQuery u casing q.query) q.documentIds c).map (c, ·)
    else none

theorem semanticRows_chunks : semanticRows e q db =
    db.chunks.filterMap (semanticEntry e q db.documents) := by
  rw [semanticRows, joined, List.filterMap_filterMap]
  apply List.filterMap_congr
  intro c _
  rw [semanticEntry]
  cases db.documents.get c.documentId <;> rfl

theorem lexicalRows_chunks : lexicalRows e u casing q db =
    db.chunks.filterMap (lexicalEntry e u casing q db.documents) := by
  rw [lexicalRows, joined, List.filterMap_filterMap]
  apply List.filterMap_congr
  intro c _
  rw [lexicalEntry]
  cases db.documents.get c.documentId <;> rfl

theorem semanticEntry_fst {t : Documents} {c : Chunk} {p : Chunk × Rat}
    (h : semanticEntry e q t c = some p) : p.1 = c := by
  obtain ⟨d, -, h⟩ := Option.bind_eq_some_iff.mp h
  split at h
  · obtain ⟨v, -, rfl⟩ := Option.map_eq_some_iff.mp h
    rfl
  · cases h

theorem lexicalEntry_fst {t : Documents} {c : Chunk} {p : Chunk × Rat}
    (h : lexicalEntry e u casing q t c = some p) : p.1 = c := by
  obtain ⟨d, -, h⟩ := Option.bind_eq_some_iff.mp h
  split at h
  · obtain ⟨v, -, rfl⟩ := Option.map_eq_some_iff.mp h
    rfl
  · cases h

theorem sameRows_semantic (h : db.SameRows db') : semanticRows e q db' =
    db'.chunks.filterMap (semanticEntry e q db.documents) := by
  have hget : ∀ id, db'.documents.get id = db.documents.get id :=
    Table.lookup_perm db.documents.ids h.documents
  rw [semanticRows_chunks]
  apply List.filterMap_congr
  intro c _
  rw [semanticEntry, semanticEntry, hget]

theorem sameRows_lexical (h : db.SameRows db') : lexicalRows e u casing q db' =
    db'.chunks.filterMap (lexicalEntry e u casing q db.documents) := by
  have hget : ∀ id, db'.documents.get id = db.documents.get id :=
    Table.lookup_perm db.documents.ids h.documents
  rw [lexicalRows_chunks]
  apply List.filterMap_congr
  intro c _
  rw [lexicalEntry, lexicalEntry, hget]

theorem sameRows_orders_semantic (h : db.SameRows db') :
    Orders Prod.snd (semanticRows e q db) (orderBy Prod.snd (semanticRows e q db')) := by
  have ho := orders_orderBy (Prod.snd : Chunk × Rat → Rat) (semanticRows e q db')
  refine ⟨ho.perm.trans ?_, ho.sorted⟩
  rw [sameRows_semantic h, semanticRows_chunks]
  exact h.chunks.filterMap _

theorem sameRows_orders_lexical (h : db.SameRows db') :
    Orders bestFirst (lexicalRows e u casing q db)
      (orderBy bestFirst (lexicalRows e u casing q db')) := by
  have ho := orders_orderBy bestFirst (lexicalRows e u casing q db')
  refine ⟨ho.perm.trans ?_, ho.sorted⟩
  rw [sameRows_lexical h, lexicalRows_chunks]
  exact h.chunks.filterMap _

/-- A search is one of the orders the database may choose. -/
theorem sameRows_search (h : db.SameRows db') (hk : db.Keyed) :
    (search e cfg u casing q db').1 = passagesOf e cfg q db
      (orderBy Prod.snd (semanticRows e q db'))
      (orderBy bestFirst (lexicalRows e u casing q db')) := by
  rw [passagesOf, rowsOf, ← rowOf_sameRows h hk]
  rfl

theorem sameInAnyOrder_of_repeatable (hk : db.Keyed) (h : Repeatable e cfg u casing q db) :
    SameInAnyOrder e cfg u casing q db := by
  intro db' hsame
  have hrefl : db.SameRows db := ⟨.refl _, .refl _⟩
  rw [sameRows_search hsame hk, sameRows_search hrefl hk]
  exact h _ _ _ _ (sameRows_orders_semantic hsame) (sameRows_orders_semantic hrefl)
    (sameRows_orders_lexical hsame) (sameRows_orders_lexical hrefl)

/-- A chunk put before all others, or after them. -/
def front (db : Corpus) (c : Chunk) : Corpus := { db with chunks := c :: db.chunks.erase c }

def back (db : Corpus) (c : Chunk) : Corpus := { db with chunks := db.chunks.erase c ++ [c] }

variable {c : Chunk}

theorem sameRows_front (hc : c ∈ db.chunks) : db.SameRows (front db c) :=
  ⟨(List.perm_cons_erase hc).symm, .refl _⟩

theorem sameRows_back (hc : c ∈ db.chunks) : db.SameRows (back db c) :=
  ⟨(List.perm_append_singleton c _).trans (List.perm_cons_erase hc).symm, .refl _⟩

section Arm

variable {κ : Type*} [LinearOrder κ] {key : Chunk × Rat → κ} {f : Chunk → Option (Chunk × Rat)}
  {n : Nat}

theorem erase_rowId (hk : db.Keyed) (hc : c ∈ db.chunks) (hf : ∀ c p, f c = some p → p.1 = c) :
    ∀ a ∈ (db.chunks.erase c).filterMap f, rowId a ≠ c.chunkId := by
  intro a ha hid
  obtain ⟨d, hd, ha⟩ := List.mem_filterMap.mp ha
  have hnd : db.chunks.Nodup := hk.of_map
  rw [hnd.mem_erase_iff] at hd
  rw [rowId, hf d a ha] at hid
  exact hd.1 (List.inj_on_of_nodup_map hk hd.2 hc hid)

/-- In front of all others a chunk has its best place in an arm. -/
theorem numberOf_front_chunk (hk : db.Keyed) (hc : c ∈ db.chunks)
    (hf : ∀ c p, f c = some p → p.1 = c) (hnd : ((db.chunks.filterMap f).map rowId).Nodup) :
    numberOf rowId (cut n (orderBy key ((front db c).chunks.filterMap f))) c.chunkId =
      numberOf rowId (ranked key n (db.chunks.filterMap f)) c.chunkId := by
  have hrows : (front db c).chunks.filterMap f =
      (f c).toList ++ (db.chunks.erase c).filterMap f := by
    rw [front, List.filterMap_cons]
    cases f c <;> rfl
  have hperm := (sameRows_front hc).chunks.filterMap f
  rw [hrows] at hperm ⊢
  apply numberOf_front hnd hperm _ (erase_rowId hk hc hf)
  intro a ha
  rw [rowId, hf c a ha]

/-- Behind them it has not, if it ties before the cut. -/
theorem numberOf_back_chunk (hk : db.Keyed) (hc : c ∈ db.chunks)
    (hf : ∀ c p, f c = some p → p.1 = c) (hnd : ((db.chunks.filterMap f).map rowId).Nodup)
    (hx : Ranking.Contested key rowId n (db.chunks.filterMap f) c.chunkId) :
    (numberOf rowId (cut n (orderBy key ((back db c).chunks.filterMap f))) c.chunkId).map Prod.snd ≠
      (numberOf rowId (ranked key n (db.chunks.filterMap f)) c.chunkId).map Prod.snd := by
  have hrows : (back db c).chunks.filterMap f =
      (db.chunks.erase c).filterMap f ++ (f c).toList := by
    rw [back, List.filterMap_append, List.filterMap_cons, List.filterMap_nil]
    cases f c <;> rfl
  have hperm := (sameRows_back hc).chunks.filterMap f
  rw [hrows] at hperm ⊢
  apply numberOf_back hnd hperm _ (erase_rowId hk hc hf) hx
  intro a ha
  rw [rowId, hf c a ha]

end Arm

/-- What the arms have on a passage is on it when it is returned. -/
theorem ranks_of_returned (hk : db.Keyed) (hoff : reranker e q = none) (h : db.SameRows db')
    {p : RankedChunk} (hp : p ∈ (search e cfg u casing q db').1) :
    p.semanticRank = (semanticAt q (cut (pool e cfg q)
      (orderBy Prod.snd (semanticRows e q db'))) p.chunkId).map SemanticRow.rank ∧
    p.lexicalRank = (lexicalAt q (cut (pool e cfg q)
      (orderBy bestFirst (lexicalRows e u casing q db'))) p.chunkId).map LexicalRow.rank := by
  rw [sameRows_search h hk, passagesOf_off hoff] at hp
  obtain ⟨r, hr, rfl⟩ := List.mem_map.mp hp
  have hrow := (orderBy_perm _ _).mem_iff.mp (List.mem_of_mem_take hr)
  obtain ⟨-, -, hfused⟩ := (mem_rowsOf (nodup_cut (nodup_semantic hk) (sameRows_orders_semantic h))
    (nodup_cut (nodup_lexical hk) (sameRows_orders_lexical h))).mp hrow
  constructor
  · exact congrArg Fused.semanticRank hfused
  · exact congrArg Fused.lexicalRank hfused

theorem semanticAt_rank {sem sem' : List ((Chunk × Rat) × Nat)} (hmode : q.mode ≠ .lexical)
    (h : (semanticAt q sem x).map SemanticRow.rank = (semanticAt q sem' x).map SemanticRow.rank) :
    (numberOf rowId sem x).map Prod.snd = (numberOf rowId sem' x).map Prod.snd := by
  simpa [semanticAt, hmode, Function.comp_def] using h

theorem lexicalAt_rank {lex lex' : List ((Chunk × Rat) × Nat)} (hmode : q.mode ≠ .semantic)
    (h : (lexicalAt q lex x).map LexicalRow.rank = (lexicalAt q lex' x).map LexicalRow.rank) :
    (numberOf rowId lex x).map Prod.snd = (numberOf rowId lex' x).map Prod.snd := by
  simpa [lexicalAt, hmode, Function.comp_def] using h

theorem semanticAt_front (hk : db.Keyed) (hc : c ∈ db.chunks) {n : Nat} :
    semanticAt q (cut n (orderBy Prod.snd (semanticRows e q (front db c)))) c.chunkId =
      semanticAt q (ranked Prod.snd n (semanticRows e q db)) c.chunkId := by
  have hnd : ((semanticRows e q db).map rowId).Nodup := nodup_semantic hk
  rw [semanticRows_chunks] at hnd
  rw [sameRows_semantic (sameRows_front hc), semanticRows_chunks, semanticAt, semanticAt,
    numberOf_front_chunk hk hc (fun _ _ => semanticEntry_fst) hnd]

theorem lexicalAt_front (hk : db.Keyed) (hc : c ∈ db.chunks) {n : Nat} :
    lexicalAt q (cut n (orderBy bestFirst (lexicalRows e u casing q (front db c)))) c.chunkId =
      lexicalAt q (ranked bestFirst n (lexicalRows e u casing q db)) c.chunkId := by
  have hnd : ((lexicalRows e u casing q db).map rowId).Nodup := nodup_lexical hk
  rw [lexicalRows_chunks] at hnd
  rw [sameRows_lexical (sameRows_front hc), lexicalRows_chunks, lexicalAt, lexicalAt,
    numberOf_front_chunk hk hc (fun _ _ => lexicalEntry_fst) hnd]

/-- If the order of the rows makes no difference, no passage that ties is ever returned: its rank
changes when its chunk is put behind the others. -/
theorem not_returned (hk : db.Keyed) (hoff : reranker e q = none)
    (hsame : SameInAnyOrder e cfg u casing q db) (hc : c ∈ db.chunks)
    (hx : Contested e cfg u casing q db c.chunkId) :
    ∀ p ∈ (search e cfg u casing q db).1, p.chunkId ≠ c.chunkId := by
  intro p hp hid
  have hfront := hp
  rw [← hsame _ (sameRows_front hc)] at hfront
  have hback := hp
  rw [← hsame _ (sameRows_back hc)] at hback
  obtain ⟨hsf, hlf⟩ := ranks_of_returned hk hoff (sameRows_front hc) hfront
  obtain ⟨hsb, hlb⟩ := ranks_of_returned hk hoff (sameRows_back hc) hback
  rw [hid] at hsf hlf hsb hlb
  rw [semanticAt_front hk hc] at hsf
  rw [lexicalAt_front hk hc] at hlf
  rcases hx with ⟨hmode, hx⟩ | ⟨hmode, hx⟩
  · have hnd : ((semanticRows e q db).map rowId).Nodup := nodup_semantic hk
    have hranks := semanticAt_rank hmode (hsb.symm.trans hsf)
    rw [sameRows_semantic (sameRows_back hc)] at hranks
    rw [semanticRows_chunks] at hnd hx hranks
    exact numberOf_back_chunk hk hc (fun _ _ => semanticEntry_fst) hnd hx hranks
  · have hnd : ((lexicalRows e u casing q db).map rowId).Nodup := nodup_lexical hk
    have hranks := lexicalAt_rank hmode (hlb.symm.trans hlf)
    rw [sameRows_lexical (sameRows_back hc)] at hranks
    rw [lexicalRows_chunks] at hnd hx hranks
    exact numberOf_back_chunk hk hc (fun _ _ => lexicalEntry_fst) hnd hx hranks

theorem settled_of_same (hk : db.Keyed) (hoff : reranker e q = none)
    (hsame : SameInAnyOrder e cfg u casing q db) : Settled e cfg u casing q db := by
  intro b hb hx
  obtain ⟨hrow, hsome, hfused⟩ := (mem_bestRows hk).mp hb
  have hc := chunk_mem_of_rowOf hrow
  have hfront := sameRows_front hc
  have hs : Orders Prod.snd (semanticRows e q db)
      (orderBy Prod.snd (semanticRows e q (front db b.chunk))) := sameRows_orders_semantic hfront
  have hl : Orders bestFirst (lexicalRows e u casing q db)
      (orderBy bestFirst (lexicalRows e u casing q (front db b.chunk))) :=
    sameRows_orders_lexical hfront
  have hns : ((cut (pool e cfg q) (orderBy Prod.snd
      (semanticRows e q (front db b.chunk)))).map fun p => rowId p.1).Nodup :=
    nodup_cut (nodup_semantic hk) hs
  have hnl : ((cut (pool e cfg q) (orderBy bestFirst
      (lexicalRows e u casing q (front db b.chunk)))).map fun p => rowId p.1).Nodup :=
    nodup_cut (nodup_lexical hk) hl
  -- with its chunk in front the passage is a candidate at its best, and is not returned
  have hmem : b ∈ rowsOf q db
      (cut (pool e cfg q) (orderBy Prod.snd (semanticRows e q (front db b.chunk))))
      (cut (pool e cfg q) (orderBy bestFirst (lexicalRows e u casing q (front db b.chunk)))) := by
    rw [mem_rowsOf hns hnl, semanticAt_front hk hc, lexicalAt_front hk hc]
    exact ⟨hrow, hsome, hfused⟩
  have hpage := hsame _ hfront
  rw [sameRows_search hfront hk, passagesOf_off hoff] at hpage
  have hreturned : ∀ r ∈ (orderBy fusionOrder (rowsOf q db
      (cut (pool e cfg q) (orderBy Prod.snd (semanticRows e q (front db b.chunk))))
      (cut (pool e cfg q) (orderBy bestFirst (lexicalRows e u casing q
        (front db b.chunk)))))).take q.limit, ¬ Contested e cfg u casing q db r.chunk.chunkId := by
    intro r hr hcon
    have hrow' := (orderBy_perm _ _).mem_iff.mp (List.mem_of_mem_take hr)
    obtain ⟨hrow', -⟩ := (mem_rowsOf hns hnl).mp hrow'
    have hres : rankedChunk e (r, none) ∈ (search e cfg u casing q db).1 := by
      rw [← hpage]
      exact List.mem_map_of_mem hr
    exact not_returned hk hoff hsame (chunk_mem_of_rowOf hrow') hcon _ hres rfl
  have hnot := fun hin => hreturned b hin hx
  obtain ⟨hlen, hbefore⟩ := take_orderBy_before (distinct_rowsOf hns hnl) hmem hnot
  rw [List.countP_eq_length_filter]
  conv_lhs => rw [← hlen]
  apply List.Subperm.length_le
  apply List.subperm_of_subset
  · have hdistinct : Distinct fusionOrder (rowsOf q db _ _) := distinct_rowsOf hns hnl
    exact ((orderBy_perm fusionOrder _).nodup_iff.mpr hdistinct.of_map).sublist
      (List.take_sublist _ _)
  · intro r hr
    have hsure := hreturned r hr
    have hin := (orderBy_perm _ _).mem_iff.mp (List.mem_of_mem_take hr)
    refine List.mem_filter.mpr ⟨List.mem_filter.mpr ⟨?_, decide_eq_true hsure⟩,
      decide_eq_true (hbefore r hr)⟩
    exact (mem_rowsOf_sure hk hs hl hsure).mp hin

/-- Two passages with the same text. -/
def twinCorpus (first second : ChunkId) : Corpus where
  documents := openCorpus.documents
  chunks := [passageOf first 0 "limits" (some [1]), passageOf second 0 "limits" (some [1])]

end Physical

end RetrievalService

end KnowledgeBase
