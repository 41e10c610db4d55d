import KnowledgeBase.Normalization
import KnowledgeBase.Retrieval

/-! Chunking: cutting a normalized document at its own headings, splitting what is too big, and
rendering its tables. A chunk records where its text comes from beside what the code stores. -/

namespace KnowledgeBase.Artifact

open Regex Recognizers

/-- How big a passage may be, in the unit `measure` counts. -/
structure SizeBudget where
  measure : Text → Nat
  target : Nat
  maximum : Nat

namespace SizeBudget

def fits (b : SizeBudget) (text : Text) : Bool := b.measure text ≤ b.maximum

end SizeBudget

structure ChunkSettings where
  targetChars : Nat := 1600
  maxChars : Nat := 2000
  maxTokens : Nat := 500
  targetTokens : Nat := 400

/-- `value or default`. -/
def orDefault (value : Option Nat) (default : Nat) : Nat :=
  match value with
  | none => default
  | some n => if n = 0 then default else n

def characterBudget (cfg : ChunkSettings) (target maximum : Option Nat) : SizeBudget :=
  { measure := List.length, target := orDefault target cfg.targetChars,
    maximum := orDefault maximum cfg.maxChars }

structure TokenCounter where
  count : Text → Nat
  maxSequenceTokens : Nat

def tokenBudget (cfg : ChunkSettings) (counter : TokenCounter) (target maximum : Option Nat) :
    SizeBudget :=
  let largest := min (orDefault maximum cfg.maxTokens) counter.maxSequenceTokens
  { measure := counter.count, target := min (orDefault target cfg.targetTokens) largest,
    maximum := largest }

inductive Origin where
  /-- A section of the unit at a place of the list, and where in its text the section begins. -/
  | section (place begins : Nat)
  | table (table : ExtractedTable)
  | figure (figure : ExtractedFigure)
  deriving DecidableEq

structure Chunk where
  index : Nat
  text : Text
  pageNumber : Option Int
  sectionHeading : Option Text
  isTable : Bool
  scale : String := "section"
  origin : Origin

structure Section where
  heading : Option Text
  body : Text
  begins : Nat

namespace Chunker

variable (u : Tables) (b : SizeBudget)

def paragraphBreak : Regex Char := concat [lit '\n', star (cls u.isSpace), lit '\n']

def sentenceEnd : Regex Char :=
  seq (look fun before _ => before.any (['.', '!', '?'].contains ·)) (plus (cls u.isSpace))

/-- `[p.strip() for p in pattern.split(text) if p.strip()]`. -/
def partsAt (pattern : Regex Char) (text : Text) : List Text :=
  ((pattern.split text).map (trim u)).filter (· ≠ [])

/-- The parts at the strongest boundary there is; one part is no boundary. -/
def boundaryParts (text : Text) : List Text :=
  if 1 < (partsAt u (paragraphBreak u) text).length then partsAt u (paragraphBreak u) text
  else partsAt u (sentenceEnd u) text

section HardWrap

open Binary64

/-- The width of a slice that still fits, by the ratio measured on this text. -/
def wrapWidth (text : Text) : Nat :=
  let ratio := float (text.length / b.measure text)
  max 1 ⌊float (float (float b.maximum * ratio) * float (9 / 10))⌋₊

/-- The text in slices of one width. -/
def slices (width : Nat) (text : Text) : List Text :=
  (List.range ((text.length + width - 1) / width)).map fun i => (text.drop (i * width)).take width

def hardWrap (text : Text) : List Text :=
  if b.measure text = 0 then [text]
  else ((slices (wrapWidth b text) text).map (trim u)).filter (· ≠ [])

end HardWrap

theorem trim_length_le (text : Text) : (trim u text).length ≤ text.length := by
  have h1 := (List.dropWhile_sublist u.isSpace (l := text)).length_le
  have h2 := (List.dropWhile_sublist u.isSpace
    (l := (text.dropWhile u.isSpace).reverse)).length_le
  simp only [trim, strip, List.length_reverse] at h2 ⊢
  omega

theorem partsAt_weight {pattern : Regex Char} (hr : 0 < pattern.minLen) {text : Text}
    (h : 1 < (partsAt u pattern text).length) :
    4 * ((partsAt u pattern text).map List.length).sum + (partsAt u pattern text).length + 1 <
      4 * text.length := by
  have hsplit := split_length (t := text) hr
  have hsub : ((partsAt u pattern text).map List.length).sum ≤
      ((pattern.split text).map List.length).sum := by
    unfold partsAt
    generalize pattern.split text = ps
    induction ps with
    | nil => simp
    | cons p ps ih =>
      have := trim_length_le u p
      rw [List.map_cons, List.filter_cons]
      split <;> simp only [List.map_cons, List.sum_cons] <;> omega
  have hlen : (partsAt u pattern text).length ≤ (pattern.split text).length :=
    (List.length_filter_le _ _).trans (by simp)
  omega

theorem boundaryParts_weight {text : Text} (h : 1 < (boundaryParts u text).length) :
    4 * ((boundaryParts u text).map List.length).sum + (boundaryParts u text).length + 1 <
      4 * text.length := by
  unfold boundaryParts at h ⊢
  split at h
  · rename_i hp
    rw [if_pos hp]
    exact partsAt_weight u (by simp [paragraphBreak, concat, lit, minLen]) hp
  · rename_i hp
    rw [if_neg hp]
    exact partsAt_weight u (by simp [sentenceEnd, plus, minLen]) h

mutual

/-- Splits on the strongest boundary there is until the pieces fit. -/
def splitToSize (text : Text) : List Text :=
  if trim u text = [] then []
  else if b.fits (trim u text) then [trim u text]
  else if _h : 1 < (boundaryParts u (trim u text)).length then
    pack (boundaryParts u (trim u text)) []
  else hardWrap u b (trim u text)
termination_by 4 * text.length
decreasing_by
  have := boundaryParts_weight u _h
  have := trim_length_le u text
  omega

/-- Recombines parts up to the target, from the parts that remain and the buffer. -/
def pack (parts : List Text) (buffer : Text) : List Text :=
  match parts with
  | [] => if buffer = [] then [] else [buffer]
  | part :: parts =>
    if b.maximum < b.measure part then
      (if buffer = [] then [] else [buffer]) ++ splitToSize part ++ pack parts []
    else if buffer ≠ [] ∧ b.target < b.measure (buffer ++ "\n\n".toList ++ part) then
      buffer :: pack parts part
    else pack parts (if buffer = [] then part else buffer ++ "\n\n".toList ++ part)
termination_by 4 * (parts.map List.length).sum + parts.length + 1
decreasing_by all_goals simp only [List.map_cons, List.sum_cons, List.length_cons]; omega

end

section Tables

def isLineBreak (c : Char) : Bool :=
  [0x0a, 0x0b, 0x0c, 0x0d, 0x1c, 0x1d, 0x1e, 0x85, 0x2028, 0x2029].contains c.toNat

/-- `text.splitlines()`, with the letters of the line so far in reverse. -/
def splitlines : Text → Text → List Text
  | [], [] => []
  | line, [] => [line.reverse]
  | line, '\r' :: '\n' :: text => line.reverse :: splitlines [] text
  | line, c :: text =>
    if isLineBreak c then line.reverse :: splitlines [] text else splitlines (c :: line) text

/-- One cell on one line. -/
def cellText (cell : Text) : Text :=
  join "; " (((splitlines [] cell).map (trim u)).filter (· ≠ []))

/-- The first of the opening three rows that is more than half as full as the fullest row. -/
def headerRow (rows : List (List Text)) : Nat :=
  let filled := rows.map fun row => row.countP (· ≠ [])
  let widest := (filled.take 12).max?.getD 0
  ((List.range (min 3 rows.length)).find? fun i => widest < filled.getD i 0 * 2).getD 0

/-- One group if it fits, otherwise halved by rows until every piece does. -/
def fitGroup (header : Text) (rows : List Text) : List Text :=
  if rows.length ≤ 1 ∨ b.fits (join "\n" (header :: rows)) then [join "\n" (header :: rows)]
  else fitGroup header (rows.take (rows.length / 2)) ++ fitGroup header (rows.drop (rows.length / 2))
termination_by rows.length
decreasing_by all_goals simp only [List.length_take, List.length_drop]; omega

/-- The groups of the rows that remain, from the group so far and its running size. -/
def rowGroups (headerSize ceiling : Nat) : List Text → Nat → List Text → List (List Text)
  | buffer, _, [] => if buffer = [] then [] else [buffer]
  | buffer, running, line :: lines =>
    if buffer ≠ [] ∧ ceiling < running + b.measure line then
      buffer :: rowGroups headerSize ceiling [line] (headerSize + b.measure line) lines
    else rowGroups headerSize ceiling (buffer ++ [line]) (running + b.measure line) lines

def groupRows (header : Text) (lines : List Text) : List Text :=
  let headerSize := b.measure header
  let ceiling := max (headerSize + 1) ⌊Binary64.float (Binary64.float b.maximum *
    Binary64.float (9 / 10))⌋₊
  (rowGroups b headerSize ceiling [] headerSize lines).flatMap (fitGroup b header)

/-- The rows of a table that have cells, with each cell on one line. -/
def cellRows (table : ExtractedTable) : List (List Text) :=
  (table.rows.filter (· ≠ [])).map (·.map (cellText u))

/-- The title rows above the header, and the header. -/
def headerLines (rows : List (List Text)) : List Text :=
  (rows.take (headerRow rows)).map (fun row => join " " (row.filter (· ≠ []))) ++
    [join " | " (rows.getD (headerRow rows) [])]

def bodyLines (rows : List (List Text)) : List Text :=
  (rows.drop (headerRow rows + 1)).map (join " | ")

def renderTable (table : ExtractedTable) : List Text :=
  let rows := cellRows u table
  if rows = [] then []
  else if bodyLines rows = [] then [join "\n" (headerLines rows)]
  else groupRows b (join "\n" (headerLines rows)) (bodyLines rows)

end Tables

section Sections

/-- `text.find(needle, start)`. -/
def findFrom (needle text : Text) (start : Nat) : Option Nat :=
  (List.range' start (text.length + 1 - start)).find? fun i => needle.isPrefixOf (text.drop i)

/-- Where each heading is found, each one looked for after the one before it. -/
def cuts (text : Text) : Nat → List Heading → List (Nat × Heading)
  | _, [] => []
  | start, heading :: headings =>
    let needle := trim u heading.text
    if needle = [] then cuts text start headings
    else match findFrom needle text start with
      | none => cuts text start headings
      | some pos => (pos, heading) :: cuts text (pos + needle.length) headings

/-- The sections the cuts begin. -/
def cutSections (text : Text) (lead : Nat) : List (Nat × Heading) → List Section
  | [] => []
  | (pos, heading) :: rest =>
    let stop := match rest with
      | [] => text.length
      | (next, _) :: _ => next
    let body := trim u (slice text pos stop)
    (if body = [] then [] else
      [{ heading := some (trim u heading.text), body, begins := lead + pos }]) ++
      cutSections text lead rest

/-- One unit's text in sections, each with its heading. -/
def splitUnitByHeadings (unit : NormalizedUnit) (headings : List Heading) : List Section :=
  let text := trim u unit.text
  let lead := (unit.text.takeWhile u.isSpace).length
  if text = [] then []
  else match cuts u text 0 headings with
    | [] => [{ heading := none, body := text, begins := lead }]
    | (pos, heading) :: rest =>
      let before := trim u (text.take pos)
      (if pos = 0 ∨ before = [] then [] else [{ heading := none, body := before, begins := lead }]) ++
        cutSections u text lead ((pos, heading) :: rest)

end Sections

/-- `" ".join(text.split())`. -/
def words (text : Text) : Text := join " " (LexicalQuery.split u.toUnicode [] text)

def appendChunks (chunks : List Chunk) (texts : List Text) (page : Int) (heading : Option Text)
    (isTable : Bool) (origin : Origin) : List Chunk :=
  texts.foldl (fun chunks text =>
    chunks ++ [{ index := chunks.length, text, pageNumber := some page, sectionHeading := heading,
                 isTable, origin }]) chunks

def addTable (unit : NormalizedUnit) (heading : Option Text) (chunks : List Chunk)
    (table : ExtractedTable) : List Chunk :=
  appendChunks chunks (renderTable u b table) unit.index heading true (.table table)

/-- The label of a figure and its words. -/
def figureBody (figure : ExtractedFigure) : Text :=
  let label := match truthy figure.caption with
    | none => figureNotice
    | some caption => figureNotice ++ " ".toList ++ caption
  if figure.text = [] then label else label ++ "\n".toList ++ figure.text

def addFigure (unit : NormalizedUnit) (heading : Option Text) (chunks : List Chunk)
    (figure : ExtractedFigure) : List Chunk :=
  appendChunks chunks (splitToSize u b (figureBody figure)) unit.index heading false
    (.figure figure)

/-- The loop over the sections of a unit. -/
structure UnitState where
  currentHeading : Option Text
  pending : List ExtractedTable
  pendingFigures : List ExtractedFigure
  chunks : List Chunk

/-- A heading with nothing under it but its own table or figure. -/
def titleOnly (st : UnitState) (sec : Section) : Bool :=
  match sec.heading with
  | none => false
  | some heading => words u sec.body = words u heading &&
    (st.pending.any (·.heading = some heading) || st.pendingFigures.any (·.heading = some heading))

/-- The tables and the figures of a section follow its prose. -/
def addAttached (unit : NormalizedUnit) (st : UnitState) (heading : Text) : UnitState :=
  let tables := st.pending.filter (·.heading = some heading)
  let figures := st.pendingFigures.filter (·.heading = some heading)
  { st with
    pending := tables.foldl List.erase st.pending
    pendingFigures := figures.foldl List.erase st.pendingFigures
    chunks := figures.foldl (addFigure u b unit (some heading))
      (tables.foldl (addTable u b unit (some heading)) st.chunks) }

def addSection (place : Nat) (unit : NormalizedUnit) (st : UnitState) (sec : Section) : UnitState :=
  let currentHeading := sec.heading.orElse fun _ => st.currentHeading
  let pieces := if titleOnly u st sec then [] else splitToSize u b sec.body
  let st := { st with
    currentHeading
    chunks := appendChunks st.chunks pieces unit.index currentHeading false
      (.section place sec.begins) }
  match sec.heading with
  | none => st
  | some heading => addAttached u b unit st heading

/-- What is still pending after the sections has no section in the text. -/
def addPending (unit : NormalizedUnit) (headings : List Heading) (st : UnitState) : UnitState :=
  let fallback := if 1 < headings.length then none else st.currentHeading
  let tabled := st.pending.foldl
    (fun chunks t => addTable u b unit ((truthy t.heading).orElse fun _ => fallback) chunks t)
    st.chunks
  { st with
    chunks := st.pendingFigures.foldl
      (fun chunks f => addFigure u b unit ((truthy f.heading).orElse fun _ => fallback) chunks f)
      tabled }

variable (result : NormalizationResult)

def unitsStandAlone : Bool := [pptxMime, xlsxMime].contains result.mimeType

def tablesOf (unit : NormalizedUnit) : List ExtractedTable :=
  result.tables.filter (·.unitIndex = unit.index)

def figuresOf (unit : NormalizedUnit) : List ExtractedFigure :=
  result.figures.filter (·.unitIndex = unit.index)

def headingsOf (unit : NormalizedUnit) : List Heading :=
  result.headings.filter (·.unitIndex = unit.index)

/-- A worksheet's text is its table written out again. -/
def sectionsOf (unit : NormalizedUnit) : List Section :=
  if unit.textIsTable then [] else splitUnitByHeadings u unit (headingsOf result unit)

def startUnit (currentHeading : Option Text) (unit : NormalizedUnit) (chunks : List Chunk) :
    UnitState :=
  { currentHeading := if unitsStandAlone result then none else currentHeading
    pending := tablesOf result unit
    pendingFigures := figuresOf result unit
    chunks }

/-- The heading in force and the chunks so far, after one more unit. -/
def addUnit (st : Option Text × List Chunk) (unit : NormalizedUnit × Nat) :
    Option Text × List Chunk :=
  let st := (sectionsOf u result unit.1).foldl (addSection u b unit.2 unit.1)
    (startUnit result st.1 unit.1 st.2)
  let st := addPending u b unit.1 (headingsOf result unit.1) st
  (st.currentHeading, st.chunks)

def chunk : List Chunk := (result.units.zipIdx.foldl (addUnit u b result) (none, [])).2

end Chunker

end KnowledgeBase.Artifact
