import KnowledgeBase.Paging
import KnowledgeBase.VisibleSearch

/-! The list of documents and the search of it, read in pages. A query orders its rows by one
column, so of two documents that are level in it either may come first. -/

namespace KnowledgeBase

open Ranking (Orders TiesOnOnePage page walk)

/-- The documents table, with the `created_at` of each row. -/
structure PostgreSQLDocumentRepository where
  documents : Documents
  createdAt : DocumentId → Nat

/-- What the text search of PostgreSQL says of a row: `search_vector @@` the query, and
`ts_rank`. -/
structure TextSearch where
  matched : String → Document → Bool
  tsRank : String → Document → Rat

namespace PostgreSQLDocumentRepository

variable (r : PostgreSQLDocumentRepository) (e : TextSearch) (viewerId : Option UserId)
  (viewerIsAdmin : Bool) (query : String)

/-- The rows that `list_paginated` pages through. -/
def listed : List Document :=
  r.documents.rows.filter fun d =>
    d.deletedAt = none && visibleDocumentsClause d viewerId viewerIsAdmin

/-- The rows that `search` pages through. -/
def hits : List Document :=
  r.documents.rows.filter fun d =>
    d.deletedAt = none && e.matched query d && visibleDocumentsClause d viewerId viewerIsAdmin

/-- `created_at DESC`. -/
def newest (d : Document) : Natᵒᵈ := OrderDual.toDual (r.createdAt d.id)

/-- A page and the number of all rows. How the rows lie in this query is the database's to
choose, among the orders its `ORDER BY` allows. -/
def listPaginated (sort : List Document → List Document) (limit offset : Nat) :
    List Document × Nat :=
  (page limit offset (sort (r.listed viewerId viewerIsAdmin)),
    (r.listed viewerId viewerIsAdmin).length)

def search (sort : List Document → List Document) (limit offset : Nat) : List Document × Nat :=
  (page limit offset (sort (r.hits e viewerId viewerIsAdmin query)),
    (r.hits e viewerId viewerIsAdmin query).length)

end PostgreSQLDocumentRepository

/-- `ts_rank(search_vector, plainto_tsquery('english', :q)) DESC`. -/
def TextSearch.mostRelevant (e : TextSearch) (query : String) (d : Document) : Ratᵒᵈ :=
  OrderDual.toDual (e.tsRank query d)

/-- The pages a reader turns until one is empty. -/
def readPages (respond : Nat → List Document × Nat) : List Document :=
  walk (fun k => (respond k).1) ((respond 0).2 + 1) 0

/-- Every row is on the pages once, and each page says how many rows there are. -/
structure PagesPartition (rows : List Document) (respond : Nat → List Document × Nat) : Prop where
  once : ∀ d ∈ rows, (readPages respond).count d = 1
  total : ∀ k, (readPages respond).length = (respond k).2

section Partition

variable {κ : Type*} [LinearOrder κ] {key : Document → κ} {rows : List Document} {limit : Nat}

theorem partition_iff (hnd : rows.Nodup) :
    (∀ sorts : Nat → List Document → List Document, (∀ k, Orders key rows (sorts k rows)) →
      PagesPartition rows fun k => (page limit (k * limit) (sorts k rows), rows.length)) ↔
    TiesOnOnePage key limit rows := by
  constructor
  · intro hall
    rcases Nat.eq_zero_or_pos limit with rfl | hlimit
    · -- an empty page is the first and the last
      intro a ha
      have hone := (hall (fun _ => Ranking.orderBy key) fun _ =>
        Ranking.orders_orderBy key rows).once a ha
      simp [readPages, walk, page] at hone
    · by_contra hties
      obtain ⟨outs, houts, a, ha, htwice⟩ := Ranking.exists_twice hlimit hties
      have hone := (hall (fun k _ => outs k) houts).once a ha
      exact htwice.ne' hone
  · intro hties sorts hsorts
    have hperm := Ranking.walk_perm hties hsorts
    constructor
    · intro d hd
      rw [readPages, hperm.count_eq]
      exact List.count_eq_one_of_mem hnd hd
    · intro k
      rw [readPages, hperm.length_eq]

end Partition

namespace PostgreSQLDocumentRepository

theorem nodup_rows {r : PostgreSQLDocumentRepository} : r.documents.rows.Nodup :=
  r.documents.ids.of_map

/-- The pages hold each document once, in the list and in a search, where those that are level
stand on one page. -/
theorem pages_partition_iff (r : PostgreSQLDocumentRepository) (e : TextSearch)
    (viewerId : Option UserId) (viewerIsAdmin : Bool) (query : String) (limit : Nat) :
    ((∀ sorts : Nat → List Document → List Document,
        (∀ k, Orders r.newest (r.listed viewerId viewerIsAdmin)
          (sorts k (r.listed viewerId viewerIsAdmin))) →
        PagesPartition (r.listed viewerId viewerIsAdmin) fun k =>
          r.listPaginated viewerId viewerIsAdmin (sorts k) limit (k * limit)) ↔
      TiesOnOnePage r.newest limit (r.listed viewerId viewerIsAdmin)) ∧
    ((∀ sorts : Nat → List Document → List Document,
        (∀ k, Orders (e.mostRelevant query) (r.hits e viewerId viewerIsAdmin query)
          (sorts k (r.hits e viewerId viewerIsAdmin query))) →
        PagesPartition (r.hits e viewerId viewerIsAdmin query) fun k =>
          r.search e viewerId viewerIsAdmin query (sorts k) limit (k * limit)) ↔
      TiesOnOnePage (e.mostRelevant query) limit (r.hits e viewerId viewerIsAdmin query)) :=
  ⟨partition_iff (nodup_rows.filter _), partition_iff (nodup_rows.filter _)⟩

def twoMemos : PostgreSQLDocumentRepository where
  documents := ⟨[RetrievalService.openDocument, { RetrievalService.openDocument with id := 1 }],
    by decide, by decide⟩
  createdAt := id

/-- Every document has the word in its title. -/
def inTitle : TextSearch where
  matched _ _ := true
  tsRank _ _ := 6079271 / 10000000

theorem level_hits_repeated :
    ¬ ∀ sorts : Nat → List Document → List Document,
      (∀ k, Orders (inTitle.mostRelevant "memo") (twoMemos.hits inTitle none false "memo")
        (sorts k (twoMemos.hits inTitle none false "memo"))) →
      PagesPartition (twoMemos.hits inTitle none false "memo") fun k =>
        twoMemos.search inTitle none false "memo" (sorts k) 1 (k * 1) := by
  intro hall
  -- the second query puts the two the other way
  have hpages := hall fun k rows => if k = 1 then rows.reverse else rows
  have hsorted : ∀ rows : List Document,
      rows.Pairwise fun a b => inTitle.mostRelevant "memo" a ≤ inTitle.mostRelevant "memo" b :=
    fun rows => List.pairwise_of_forall fun _ _ => le_rfl
  have hone := (hpages ?_).once RetrievalService.openDocument (by decide)
  · revert hone
    decide
  · intro k
    refine ⟨?_, hsorted _⟩
    split
    · exact List.reverse_perm _
    · exact List.Perm.refl _

end PostgreSQLDocumentRepository

end KnowledgeBase
