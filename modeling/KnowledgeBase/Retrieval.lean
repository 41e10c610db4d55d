import KnowledgeBase.AnswerService
import KnowledgeBase.Pipeline
import KnowledgeBase.Ranking

/-! How passages are retrieved: two arms, each filtered by what the viewer may see before it
is ranked and cut, fused by their ranks, and reordered by a model that reads the passages. -/

namespace KnowledgeBase

structure Casing where
  isUpper : Char → Bool
  lower : Text → Text

namespace LexicalQuery

variable (u : Unicode) (casing : Casing)

def stopwords : List String :=
  ["a", "an", "the", "this", "that", "these", "those",
   "is", "are", "was", "were", "be", "been", "being", "am", "do", "does", "did", "done",
   "have", "has", "had", "having",
   "what", "which", "who", "whom", "whose", "when", "where", "why", "how",
   "of", "in", "on", "at", "to", "for", "from", "by", "with", "within", "into", "onto",
   "about", "as", "and", "or", "but", "nor", "so", "then", "than", "if", "else", "while",
   "during",
   "it", "its", "they", "them", "their", "there", "here", "i", "me", "my", "we", "us", "our",
   "you", "your", "he", "she", "his", "her",
   "can", "could", "shall", "should", "will", "would", "may", "might", "must",
   "any", "some", "all", "each", "both", "few", "more", "most", "other", "such", "not", "no",
   "only", "own", "same",
   "please", "tell", "show", "give", "list", "explain", "describe", "summarise", "summarize"]

def minTerms : Nat := 2

/-- `question.split()`, with the letters of the word so far in reverse. -/
def split : Text → Text → List Text
  | [], [] => []
  | word, [] => [word.reverse]
  | word, c :: text =>
    if u.isSpace c then (if word = [] then split [] text else word.reverse :: split [] text)
    else split (c :: word) text

/-- What `_EDGE_PUNCT` leaves of a token after its start, given the two letters before. -/
def trimEnd : Option Char → Option Char → Text → Text
  | _, _, [] => []
  | before, last, c :: rest =>
    if ¬ (before = some '.' ∧ last.any u.isWord = true) ∧
        (c :: rest).all (fun x => !u.isWord x && x ≠ ')' && x ≠ '.') then []
    else if c = '.' ∧ rest = [] ∧ ¬ last.any asciiUpper = true then []
    else c :: trimEnd last (some c) rest

/-- `_EDGE_PUNCT.sub("", raw)`. -/
def trimEdges (raw : Text) : Text :=
  let leads := fun c => !u.isWord c && c ≠ '('
  let lead := (raw.takeWhile leads).reverse
  trimEnd u lead[1]? lead[0]? (raw.dropWhile leads)

def keeps (token : Text) : Bool :=
  match token with
  | [] => false
  | [c] => casing.isUpper c || !(stopwords.map String.toList).contains (casing.lower [c])
  | _ => !(stopwords.map String.toList).contains (casing.lower token)

def lexicalQuery (question : Text) : Text :=
  let kept := ((split u [] question).map (trimEdges u)).filter (keeps casing)
  if kept.length < minTerms then question else [' '].intercalate kept

end LexicalQuery

/-- The SQL form of the rule on who sees a document. -/
def visibleDocumentsClause (d : Document) (viewerId : Option UserId) (viewerIsAdmin : Bool) :
    Bool :=
  if viewerIsAdmin then true
  else
    match viewerId with
    | none => d.classification ≠ some .restricted
    | some id => d.classification ≠ some .restricted || d.ownerId = some id

inductive SearchMode where
  | hybrid | semantic | lexical
  deriving DecidableEq

structure SearchRequest where
  query : Text
  userId : Option UserId
  isAdmin : Bool
  limit : Nat
  mode : SearchMode
  rerank : Option Bool
  documentIds : List DocumentId

structure SearchSettings where
  rerankCandidates : Nat
  rerankMaxChars : Nat

/-- No scores, where the model could not be run. -/
structure Reranker where
  scores : Text → List Text → Option (List Rat)

/-- The models and the indexes. A passage that does not match the terms has no BM25 score. -/
structure SearchEngine where
  modelName : String
  embedQuery : Text → EmbeddingVector
  cosineDistance : EmbeddingVector → EmbeddingVector → Rat
  bm25 : Text → List DocumentId → Chunk → Option Rat
  reranker : Option Reranker
  countTokens : Text → Nat
  maxSequenceTokens : Nat

/-- The two tables a search reads. -/
structure Corpus where
  documents : Documents
  chunks : List Chunk

def World.corpus (w : World) : Corpus := { documents := w.documents, chunks := w.chunks }

/-- A retrieved chunk with what the search says of it. -/
structure RankedChunk extends RetrievedChunk where
  isTable : Bool
  score : Rat
  semanticRank : Option Nat
  lexicalRank : Option Nat
  similarity : Option Rat
  tokenCount : Nat
  truncated : Bool
  rerankScore : Option Rat
  fusionRank : Option Nat
  deriving DecidableEq

structure TokenUsage where
  queryTokens : Nat
  contextTokens : Nat
  maxSequenceTokens : Nat
  truncatedResults : Nat
  model : String
  mode : SearchMode
  semanticHits : Nat
  lexicalHits : Nat
  deriving DecidableEq

namespace RetrievalService

def rrfK : Nat := 60

def candidateMultiplier : Nat := 5

def maxCandidates : Nat := 200

def candidatePool (limit : Nat) : Nat := min maxCandidates (max limit (limit * candidateMultiplier))

/-- One arm's contribution; an arm that did not return the passage adds nothing. -/
def contribution : Option Nat → Rat
  | none => 0
  | some rank => 1 / ((rrfK : Rat) + rank)

def inScope (documentIds : List DocumentId) (id : DocumentId) : Bool :=
  documentIds.isEmpty || documentIds.contains id

def visible (q : SearchRequest) (documentIds : List DocumentId) (d : Document) : Bool :=
  d.deletedAt = none && visibleDocumentsClause d q.userId q.isAdmin && inScope documentIds d.id

/-- `document_chunks JOIN documents`. -/
def joined (db : Corpus) : List (Chunk × Document) :=
  db.chunks.filterMap fun c => (db.documents.get c.documentId).map (c, ·)

structure SemanticRow where
  chunkId : ChunkId
  rank : Nat
  similarity : Rat
  deriving DecidableEq

structure LexicalRow where
  chunkId : ChunkId
  rank : Nat
  deriving DecidableEq

structure Fused where
  chunkId : ChunkId
  score : Rat
  semanticRank : Option Nat
  lexicalRank : Option Nat
  similarity : Option Rat
  deriving DecidableEq

/-- A row of the result before it is reordered. -/
structure Row where
  chunk : Chunk
  document : Document
  fused : Fused
  deriving DecidableEq

section Arms

variable (e : SearchEngine) (u : Unicode) (casing : Casing) (q : SearchRequest) (db : Corpus)

/-- The rows of the semantic arm, each at its distance. -/
def semanticRows : List (Chunk × Rat) :=
  (joined db).filterMap fun r =>
    if visible q q.documentIds r.2 then
      r.1.embedding.map fun v => (r.1, e.cosineDistance v (e.embedQuery q.query))
    else none

def semanticArm (pool : Nat) : List SemanticRow :=
  (Ranking.top Prod.snd pool (semanticRows e q db)).map fun p =>
    { chunkId := p.1.1.chunkId, rank := p.2, similarity := 1 - p.1.2 }

/-- The rows of the lexical arm, each with its score. The scope is part of the index query. -/
def lexicalRows : List (Chunk × Rat) :=
  (joined db).filterMap fun r =>
    if visible q [] r.2 && inScope q.documentIds r.1.documentId then
      (e.bm25 (LexicalQuery.lexicalQuery u casing q.query) q.documentIds r.1).map (r.1, ·)
    else none

def lexicalArm (pool : Nat) : List LexicalRow :=
  (Ranking.top (fun r => OrderDual.toDual r.2) pool (lexicalRows e u casing q db)).map fun p =>
    { chunkId := p.1.1.chunkId, rank := p.2 }

end Arms

def fusedRow (chunkId : ChunkId) (s : Option SemanticRow) (l : Option LexicalRow) : Fused :=
  { chunkId
    score := contribution (s.map SemanticRow.rank) + contribution (l.map LexicalRow.rank)
    semanticRank := s.map SemanticRow.rank
    lexicalRank := l.map LexicalRow.rank
    similarity := s.map SemanticRow.similarity }

/-- The candidates: what either arm returned, or the one arm that ran. -/
def fuse (mode : SearchMode) (sem : List SemanticRow) (lex : List LexicalRow) : List Fused :=
  match mode with
  | .hybrid =>
    (Ranking.fullJoin SemanticRow.chunkId LexicalRow.chunkId sem lex).map fun r =>
      fusedRow (r.key SemanticRow.chunkId LexicalRow.chunkId) r.left? r.right?
  | .semantic => sem.map fun s => fusedRow s.chunkId (some s) none
  | .lexical => lex.map fun l => fusedRow l.chunkId none (some l)

def rowOf (db : Corpus) (f : Fused) : Option Row :=
  (Table.lookup Chunk.chunkId db.chunks f.chunkId).bind fun c =>
    (db.documents.get c.documentId).map fun d => { chunk := c, document := d, fused := f }

/-- By score, the best first, and among equals by the id of the chunk. -/
def fusionOrder (r : Row) : Ratᵒᵈ ×ₗ ChunkId :=
  toLex (OrderDual.toDual r.fused.score, r.chunk.chunkId)

/-- By the model's score, the best first, and among equals by the place before. -/
def rerankOrder (p : (Row × Rat) × Nat) : Ratᵒᵈ ×ₗ Nat := toLex (OrderDual.toDual p.1.2, p.2)

/-- The best rows, each with its score and its place before, where the model could be run. -/
def rerankRows (cfg : SearchSettings) (reranker : Option Reranker) (query : Text)
    (rows : List Row) (limit : Nat) : List (Row × Option (Rat × Nat)) :=
  let unmoved := (rows.take limit).map (·, none)
  match reranker with
  | none => unmoved
  | some reranker =>
    if rows = [] then unmoved
    else
      match reranker.scores query
          (rows.map fun r => r.chunk.passage.text.toList.take cfg.rerankMaxChars) with
      | none => unmoved
      | some scores =>
        if scores.length ≠ rows.length then unmoved
        else
          ((Ranking.orderBy rerankOrder ((rows.zip scores).zipIdx 1)).take limit).map fun p =>
            (p.1.1, some (p.1.2, p.2))

section Search

variable (e : SearchEngine) (cfg : SearchSettings) (u : Unicode) (casing : Casing)
  (q : SearchRequest) (db : Corpus)

def reranker : Option Reranker := if q.rerank.getD true then e.reranker else none

def fetch : Nat :=
  if (reranker e q).isSome then max q.limit cfg.rerankCandidates else q.limit

def pool : Nat := candidatePool (fetch e cfg q)

def candidates : List Fused :=
  fuse q.mode (semanticArm e q db (pool e cfg q)) (lexicalArm e u casing q db (pool e cfg q))

/-- The rows the statement returns. -/
def rows : List Row :=
  (Ranking.orderBy fusionOrder ((candidates e cfg u casing q db).filterMap (rowOf db))).take
    (fetch e cfg q)

def rankedChunk (r : Row × Option (Rat × Nat)) : RankedChunk :=
  let text := r.1.chunk.passage.text.toList
  { chunkId := r.1.chunk.chunkId
    documentId := r.1.chunk.documentId
    filename := r.1.document.filename.toList
    text
    pageNumber := r.1.chunk.passage.pageNumber
    sectionHeading := r.1.chunk.passage.sectionHeading.map String.toList
    isTable := r.1.chunk.passage.isTable
    score := r.1.fused.score
    semanticRank := r.1.fused.semanticRank
    lexicalRank := r.1.fused.lexicalRank
    similarity := r.1.fused.similarity
    tokenCount := e.countTokens text
    truncated := e.maxSequenceTokens < e.countTokens text
    rerankScore := r.2.map Prod.fst
    fusionRank := r.2.map Prod.snd }

def usage (results : List RankedChunk) : TokenUsage :=
  { queryTokens := if q.query = [] then 0 else e.countTokens q.query
    contextTokens := (results.map RankedChunk.tokenCount).sum
    maxSequenceTokens := e.maxSequenceTokens
    truncatedResults := results.countP RankedChunk.truncated
    model := e.modelName
    mode := q.mode
    semanticHits := results.countP fun r => r.semanticRank.isSome
    lexicalHits := results.countP fun r => r.lexicalRank.isSome }

def search : List RankedChunk × TokenUsage :=
  let results := (rerankRows cfg (reranker e q) q.query (rows e cfg u casing q db) q.limit).map
    (rankedChunk e)
  (results, usage e q results)

end Search

end RetrievalService

end KnowledgeBase
