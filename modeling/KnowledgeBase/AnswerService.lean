import KnowledgeBase.Gateway

/-! How an answer is asked for and checked: the message composed from the passages that
crossed the boundary, and the markers of the reply against the passages sent. -/

namespace KnowledgeBase

structure RetrievedChunk where
  chunkId : Nat
  documentId : DocumentId
  filename : Text
  text : Text
  pageNumber : Option Nat
  sectionHeading : Option Text
  deriving DecidableEq

structure Citation where
  marker : Nat
  chunkId : Nat
  documentId : DocumentId
  filename : Text
  pageNumber : Option Nat
  sectionHeading : Option Text
  text : Text
  deriving DecidableEq

structure GeneratedAnswer where
  question : Text
  answer : Text
  grounded : Bool
  citations : List Citation
  invalidMarkers : List Nat
  excludedRestricted : Nat
  model : String
  inputTokens : Nat
  outputTokens : Nat
  boundary : Option BoundaryRecord

namespace AnswerService

def systemPrompt : String :=
  "You answer questions for A-PAG, an Indian air quality policy organisation, using only the " ++
  "numbered passages supplied with each question.\n\nRules:\n" ++
  "- Use only the passages. Do not use anything you know from outside them.\n" ++
  "- Mark every factual claim with the passage it came from, like [2]. A sentence drawing on " ++
  "two passages carries both, like [1][3].\n" ++
  "- If the passages do not answer the question, say exactly what is missing. Do not fill the " ++
  "gap.\n" ++
  "- Quote figures, dates and section numbers exactly as the passages give them.\n" ++
  "- Be brief and plain. No preamble, no restating the question, no closing summary.\n" ++
  "- Write in the language the question was asked in."

/-- Where a passage comes from, never redacted. -/
def sourceLabel (c : RetrievedChunk) : List Text :=
  [c.filename] ++
    (match c.pageNumber with
      | none => []
      | some n => [s!"p.{n}".toList]) ++
    (match c.sectionHeading with
      | none => []
      | some heading => if heading = [] then [] else [heading])

/-- One numbered passage of the message. -/
def contextPart (i : Nat) (c : RetrievedChunk) (body : Text) : Text :=
  s!"[{i}] (".toList ++ " · ".toList.intercalate (sourceLabel c) ++ ")\n".toList ++ body

def buildContext (chunks : List RetrievedChunk) (texts : Option (List Text)) : Text :=
  let bodies := texts.getD (chunks.map RetrievedChunk.text)
  "\n\n".toList.intercalate
    ((chunks.zip bodies).mapIdx fun i p => contextPart (i + 1) p.1 p.2)

def compose (question : Text) (sent : List RetrievedChunk) (bodies : List Text) : Text :=
  buildContext sent (some bodies) ++ "\n\n---\n\nQuestion: ".toList ++ question

section Citations

open Regex Recognizers

variable (u : Unicode)

/-- `_MARKER`. -/
def marker : Regex Char := concat [lit '[', plus (digit u), lit ']']

/-- `int` of digits. -/
def number (text : Text) : Nat := text.foldl (fun n c => 10 * n + u.value c) 0

def markers (text : Text) : List Nat :=
  ((marker u).finditer text).map fun m => number u (slice text (m.1 + 1) (m.2 - 1))

/-- `text.replace(pattern, "")`, with the characters of a match still to be skipped. -/
def removeAll (pattern : Text) : Nat → Text → Text
  | _, [] => []
  | skip + 1, _ :: text => removeAll pattern skip text
  | 0, c :: text =>
    if pattern.isPrefixOf (c :: text) then removeAll pattern (pattern.length - 1) text
    else c :: removeAll pattern 0 text

/-- `re.sub(r" {2,}", " ", text)`. -/
def singleSpaces : Text → Text
  | [] => []
  | c :: text =>
    if c = ' ' ∧ text.head? = some ' ' then singleSpaces text else c :: singleSpaces text

/-- `re.sub(r" +([.,;:])", r"\1", text)`. -/
def closePunctuation : Text → Text
  | [] => []
  | c :: text =>
    if c = ' ' ∧ (text.dropWhile (· = ' ')).head?.any (fun p => ['.', ',', ';', ':'].contains p)
    then closePunctuation text
    else c :: closePunctuation text

/-- The numbers in order of their first occurrence. -/
def distinct (ns : List Nat) : List Nat :=
  ns.foldl (fun seen n => if seen.contains n then seen else seen ++ [n]) []

def citation (chunks : List RetrievedChunk) (n : Nat) : Option Citation :=
  chunks[n - 1]?.map fun c =>
    { marker := n, chunkId := c.chunkId, documentId := c.documentId, filename := c.filename,
      pageNumber := c.pageNumber, sectionHeading := c.sectionHeading, text := c.text }

def verifyCitations (text : Text) (chunks : List RetrievedChunk) :
    Text × List Citation × List Nat :=
  let found := distinct (markers u text)
  let seen := found.filter fun n => 1 ≤ n ∧ n ≤ chunks.length
  let invalid := found.filter fun n => ¬ (1 ≤ n ∧ n ≤ chunks.length)
  let cleaned := invalid.foldl (fun t n => removeAll s!"[{n}]".toList 0 t) text
  (strip u (closePunctuation (singleSpaces cleaned)),
    (seen.insertionSort (· ≤ ·)).filterMap (citation chunks), invalid.insertionSort (· ≤ ·))

end Citations

def ungrounded (provider : AnswerProvider) (question : Text) (excluded : Nat) :
    GeneratedAnswer :=
  { question, answer := [], grounded := false, citations := [], invalidMarkers := [],
    excludedRestricted := excluded, model := provider.modelName, inputTokens := 0,
    outputTokens := 0, boundary := none }

/-- The chunks at the places the gateway reports back. -/
def sentChunks (usable : List RetrievedChunk) (places : List (Nat × Text)) : List RetrievedChunk :=
  places.filterMap fun p => usable[p.1]?

/-- The tiers handed to the gateway; without any, each counts as unknown. -/
def suppliedTiers (chunks : List RetrievedChunk) (tiers : Option (List (Option String)))
    (count : Nat) : List (Option String) :=
  (match tiers with
    | none | some [] => List.replicate chunks.length none
    | some tiers => tiers).take count

/-- The calls of the provider, and the answer or the error. -/
def answer (u : Unicode) (cfg : GenerationSettings) (provider : AnswerProvider) (question : Text)
    (chunks : List RetrievedChunk) (grounded : Bool) (tiers : Option (List (Option String))) :
    List ModelRequest × Except String GeneratedAnswer :=
  if !grounded || chunks.isEmpty then ([], .ok (ungrounded provider question 0))
  else
    let usable := chunks.take cfg.generationMaxPassages
    match DataBoundaryGateway.send u cfg provider systemPrompt.toList
        (usable.map RetrievedChunk.text) (suppliedTiers chunks tiers usable.length)
        (fun places => compose question (sentChunks usable places) (places.map Prod.snd)) with
    | .error _ => ([], .ok (ungrounded provider question usable.length))
    | .ok crossing =>
      ([crossing.request],
        match crossing.outcome with
        | .error (.generationError message) => .error message
        | .error (.other message) => .error s!"Generation failed: {message}"
        | .ok (reply, record) =>
          let sent := sentChunks usable ((DataBoundaryGateway.kept cfg
            (usable.map RetrievedChunk.text)
            (suppliedTiers chunks tiers usable.length)).map fun p => (p.1, p.2.1))
          let (cleaned, citations, invalid) := verifyCitations u reply.text sent
          .ok { question, answer := cleaned, grounded := true, citations,
                invalidMarkers := invalid, excludedRestricted := record.passagesWithheldRestricted,
                model := provider.modelName, inputTokens := reply.inputTokens,
                outputTokens := reply.outputTokens, boundary := some record })

/-- The passages of a call that may leave. -/
def sentOf (cfg : GenerationSettings) (chunks : List RetrievedChunk)
    (tiers : Option (List (Option String))) : List RetrievedChunk :=
  let usable := chunks.take cfg.generationMaxPassages
  (usable.zip (suppliedTiers chunks tiers usable.length)).filterMap fun p =>
    if DataBoundaryGateway.mayLeave cfg p.2 then some p.1 else none

/-- No value found in a passage that is sent stands anywhere in the message. -/
def NoMaskedValueLeaves (u : Unicode) (cfg : GenerationSettings) (provider : AnswerProvider)
    (question : Text) (chunks : List RetrievedChunk) (grounded : Bool)
    (tiers : Option (List (Option String))) : Prop :=
  ∀ request ∈ (answer u cfg provider question chunks grounded tiers).1,
    ∀ c ∈ sentOf cfg chunks tiers, ∀ f ∈ findAll u c.text, ¬ f.text <:+: request.user

section Sent

variable {cfg : GenerationSettings} {usable : List RetrievedChunk} {ts : List (Option String)}

/-- The chunks that may leave, each with its tier and its place. -/
def leaving (cfg : GenerationSettings) (usable : List RetrievedChunk)
    (ts : List (Option String)) : List ((RetrievedChunk × Option String) × Nat) :=
  (usable.zip ts).zipIdx.filter fun p => DataBoundaryGateway.mayLeave cfg p.1.2

theorem kept_eq : DataBoundaryGateway.kept cfg (usable.map RetrievedChunk.text) ts =
    (leaving cfg usable ts).map fun p => (p.2, p.1.1.text, p.1.2) := by
  unfold DataBoundaryGateway.kept leaving
  rw [List.zip_map_left, List.zipIdx_map, List.filter_map, List.map_map]
  rfl

theorem leaving_chunks : (leaving cfg usable ts).map (fun p => p.1.1) =
    (usable.zip ts).filterMap fun p =>
      if DataBoundaryGateway.mayLeave cfg p.2 then some p.1 else none := by
  have hfst : (leaving cfg usable ts).map Prod.fst =
      (usable.zip ts).filter fun p => DataBoundaryGateway.mayLeave cfg p.2 := by
    have hids := List.zipIdx_map_fst 0 (usable.zip ts)
    rw [leaving]
    conv_rhs => rw [← hids, List.filter_map]
    rfl
  have hmap : (leaving cfg usable ts).map (fun p => p.1.1) =
      ((leaving cfg usable ts).map Prod.fst).map Prod.fst := by
    rw [List.map_map]
    rfl
  rw [hmap, hfst]
  induction usable.zip ts with
  | nil => rfl
  | cons p ps ih =>
    rw [List.filter_cons, List.filterMap_cons]
    split
    · simp [ih]
    · simp [ih]

/-- The places the gateway reports lead back to the chunks. -/
theorem sentChunks_eq {bodies : List Text} (hlen : bodies.length = (leaving cfg usable ts).length) :
    sentChunks usable (((leaving cfg usable ts).map Prod.snd).zip bodies) =
      (leaving cfg usable ts).map fun p => p.1.1 := by
  have hat : ∀ p ∈ leaving cfg usable ts, usable[p.2]? = some p.1.1 := by
    intro p hp
    have hget := List.mem_zipIdx_iff_getElem?.mp (List.mem_filter.mp hp).1
    rw [List.getElem?_zip_eq_some] at hget
    exact hget.1
  have hfst : ((((leaving cfg usable ts).map Prod.snd).zip bodies).map Prod.fst) =
      (leaving cfg usable ts).map Prod.snd :=
    List.map_fst_zip (by rw [List.length_map, hlen])
  have hplaces : sentChunks usable (((leaving cfg usable ts).map Prod.snd).zip bodies) =
      ((leaving cfg usable ts).map Prod.snd).filterMap (usable[·]?) := by
    rw [← hfst, List.filterMap_map, hfst]
    rfl
  rw [hplaces, List.filterMap_map]
  clear hplaces hfst hlen
  generalize leaving cfg usable ts = left at hat ⊢
  induction left with
  | nil => rfl
  | cons p ps ih =>
    have hp := hat p List.mem_cons_self
    rw [List.filterMap_cons_some (by exact hp), List.map_cons]
    exact congrArg _ (ih (fun q hq => hat q (List.mem_cons_of_mem p hq)))

end Sent

def boundarySettings : GenerationSettings where
  generationMaxPassages := 8
  generationIncludeRestricted := false
  gatewayRedact := true

def quietProvider : AnswerProvider where
  modelName := "quiet"
  endpoint := none
  complete _ _ := .ok { text := [], inputTokens := 0, outputTokens := 0 }

/-- A passage that begins with the line it has for a heading. -/
def headedChunk : RetrievedChunk where
  chunkId := 0
  documentId := 0
  filename := "memo.pdf".toList
  text := "PAN ABCDE1234F\nFiled.".toList
  pageNumber := some 1
  sectionHeading := some "PAN ABCDE1234F".toList

end AnswerService

end KnowledgeBase
