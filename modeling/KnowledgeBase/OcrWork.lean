import KnowledgeBase.Allowance
import KnowledgeBase.OcrRecord

/-! How much a document can make the engines work. Both limits are counted down by what is read,
not by what is handed over, so both are an allowance that only a yield uses up. -/

namespace KnowledgeBase.Artifact

open Allowance

namespace PdfTextExtractor

variable (u : Tables) (minNativeChars maxPages : Nat)

/-- The pages handed to the engine, from a state of the loop on. -/
def sentFrom : State → List Page → List Page
  | _, [] => []
  | st, page :: pages =>
    (if needsOcr u minNativeChars page ∧ page.rendered ∧ 0 < st.ocrBudget then [page] else []) ++
      sentFrom (addPage u minNativeChars st page) pages

def sent (pages : List Page) : List Page := sentFrom u minNativeChars { ocrBudget := maxPages } pages

/-- The pages the engine is for. -/
def forEngine (pages : List Page) : List Page :=
  pages.filter fun page => needsOcr u minNativeChars page && page.rendered

variable {u minNativeChars maxPages}

theorem worded_rendered {page : Page} (h : Worded page) : page.rendered = true := by
  by_contra hr
  simp [Worded, wordsRead, Page.read, hr] at h

theorem addPage_budget (st : State) (page : Page) : (addPage u minNativeChars st page).ocrBudget =
    st.ocrBudget - (if needsOcr u minNativeChars page = true ∧ Worded page then 1 else 0) := by
  have hread : (if needsOcr u minNativeChars page = true ∧ 0 < st.ocrBudget then
      ocrPage u page (st.units.length + 1) else ([], [])).1 = [] ↔
      ¬ (needsOcr u minNativeChars page = true ∧ 0 < st.ocrBudget ∧ Worded page) := by
    split
    · rename_i h
      rw [← not_iff_not, not_not]
      simpa [h] using ocrPage_text_iff u page (st.units.length + 1)
    · rename_i h
      simp only [true_iff]
      exact fun hs => h ⟨hs.1, hs.2.1⟩
  simp only [addPage]
  by_cases hs : needsOcr u minNativeChars page = true ∧ Worded page
  · by_cases hleft : 0 < st.ocrBudget
    · rw [if_neg (fun h => hread.mp h ⟨hs.1, hleft, hs.2⟩), if_pos hs]
    · rw [if_pos (hread.mpr fun h => hleft h.2.1), if_pos hs]
      omega
  · rw [if_pos (hread.mpr fun h => hs ⟨h.1, h.2.2⟩), if_neg hs]
    rfl

theorem sentFrom_eq (st : State) (pages : List Page) : sentFrom u minNativeChars st pages =
    taken Worded st.ocrBudget (forEngine u minNativeChars pages) := by
  induction pages generalizing st with
  | nil => simp [sentFrom, forEngine]
  | cons page pages ih =>
    rw [sentFrom, ih, addPage_budget]
    by_cases hfor : needsOcr u minNativeChars page = true ∧ page.rendered = true
    · have hcons : forEngine u minNativeChars (page :: pages) =
          page :: forEngine u minNativeChars pages := by
        simp [forEngine, hfor]
      rw [hcons]
      cases hbudget : st.ocrBudget with
      | zero => simp
      | succ n =>
        rw [taken_cons]
        by_cases hworded : Worded page <;> simp [hfor, hworded]
    · have hskip : forEngine u minNativeChars (page :: pages) = forEngine u minNativeChars pages := by
        simp only [forEngine, List.filter_cons, Bool.and_eq_true, if_neg hfor]
      have hspend : ¬ (needsOcr u minNativeChars page = true ∧ Worded page) :=
        fun h => hfor ⟨h.1, worded_rendered h.2⟩
      rw [hskip, if_neg hspend, if_neg (fun h => hfor ⟨h.1, h.2.1⟩)]
      rfl

end PdfTextExtractor

/-- What the table reader makes of a picture. -/
structure PictureReading where
  tables : List (List (List Text) × Text)
  lines : List Text
  unreadable : Nat

structure FoundPicture (Blob : Type) where
  unitIndex : Int
  heading : Option Text
  blob : Blob
  extension : String
  tablesOnly : Bool := false

/-- A vector picture, drawn, and its labels alone. -/
structure Drawn (Blob : Type) where
  png : Blob
  labels : Option Blob

/-- The libraries the reader of pictures calls; `tableReader` is `none` where it raises. -/
structure PictureTools (Blob Image : Type) where
  digest : Blob → Nat
  rasterise : List (Nat × Blob × String) → Nat → Option (Drawn Blob)
  decode : Blob → Option Image
  shortEdge : Image → Nat
  tableReader : Image → Bool → Option Image → Option PictureReading

namespace OfficePictureReader

def rasterExtensions : List String := ["png", "jpg", "jpeg", "gif", "bmp", "tif", "tiff", "webp"]

def vectorExtensions : List String := ["emf", "wmf"]

/-- A picture used this often is a logo. -/
def repeated : Nat := 3

variable {Blob Image : Type} (u : Tables) (tools : PictureTools Blob Image)

/-- The first of the pictures with the same bytes, where they are no logo and can be drawn. -/
def wanted (found : List (FoundPicture Blob)) : List (FoundPicture Blob) :=
  (found.foldl (fun (seen, wanted) p =>
    if repeated ≤ found.countP (fun q => tools.digest q.blob = tools.digest p.blob) ∨
        tools.digest p.blob ∈ seen then (seen, wanted)
    else (tools.digest p.blob :: seen,
      if p.extension ∈ rasterExtensions ∨ p.extension ∈ vectorExtensions then wanted ++ [p]
      else wanted)) (([] : List Nat), [])).2

/-- The picture at a place of the wanted ones as an image, with its labels. -/
def image (rendered : Nat → Option (Drawn Blob)) (i : Nat) (picture : FoundPicture Blob) :
    Option (Image × Option Image) :=
  if picture.extension ∈ vectorExtensions then
    (rendered i).bind fun drawn =>
      (tools.decode drawn.png).map fun img => (img, drawn.labels.bind tools.decode)
  else (tools.decode picture.blob).map fun img => (img, none)

def pictureTables (reading : PictureReading) : List (List (List Text)) :=
  reading.tables.map fun t => withOcrNotice u t.1 t.2

def pictureWords (reading : PictureReading) : Text :=
  let text := join "\n" reading.lines
  if text ≠ [] ∧ 0 < reading.unreadable then
    text ++ "\n".toList ++ unreadableNotice reading.unreadable "in this picture" else text

/-- What is read, and how many pictures were handed to the table reader for it. -/
structure State where
  results : List PictureText := []
  handed : Nat := 0

def readOne (minEdge maxPerDocument : Nat) (rendered : Nat → Option (Drawn Blob)) (st : State)
    (picture : FoundPicture Blob × Nat) : State :=
  match image tools rendered picture.2 picture.1 with
  | none => st
  | some (img, labels) =>
    if tools.shortEdge img < minEdge then st
    else if maxPerDocument ≤ st.results.length then st
    else
      let st := { st with handed := st.handed + 1 }
      match tools.tableReader img picture.1.tablesOnly labels with
      | none => st
      | some reading =>
        if pictureTables u reading = [] ∧ pictureWords reading = [] then st
        else { st with
          results := st.results ++ [{ unitIndex := picture.1.unitIndex, text := pictureWords reading,
                                      caption := none, heading := picture.1.heading,
                                      tables := pictureTables u reading }] }

/-- The vector pictures are drawn in one go, by their places. -/
def rendered (wanted : List (FoundPicture Blob)) : Nat → Option (Drawn Blob) :=
  tools.rasterise ((wanted.zipIdx.filter fun p => p.1.extension ∈ vectorExtensions).map
    fun p => (p.2, p.1.blob, p.1.extension))

def read (minEdge maxPerDocument : Nat) (found : List (FoundPicture Blob)) : State :=
  let pictures := wanted tools found
  pictures.zipIdx.foldl (readOne u tools minEdge maxPerDocument (rendered tools pictures)) {}

/-- Large enough to be worth reading. -/
def Worthwhile (minEdge : Nat) (rendered : Nat → Option (Drawn Blob))
    (picture : FoundPicture Blob × Nat) : Bool :=
  (image tools rendered picture.2 picture.1).any fun p => !(tools.shortEdge p.1 < minEdge)

/-- The table reader finds a table or a line in it. -/
def Says (rendered : Nat → Option (Drawn Blob)) (picture : FoundPicture Blob × Nat) : Bool :=
  ((image tools rendered picture.2 picture.1).bind fun p =>
    tools.tableReader p.1 picture.1.tablesOnly p.2).any fun reading =>
      reading.tables ≠ [] || join "\n" reading.lines ≠ []

/-- The pictures the table reader is for, with their places. -/
def forReader (minEdge : Nat) (found : List (FoundPicture Blob)) : List (FoundPicture Blob × Nat) :=
  let pictures := wanted tools found
  pictures.zipIdx.filter (Worthwhile tools minEdge (rendered tools pictures))

variable {u tools}

theorem pictureTables_eq_nil_iff (reading : PictureReading) :
    pictureTables u reading = [] ↔ reading.tables = [] := List.map_eq_nil_iff

theorem pictureWords_eq_nil_iff (reading : PictureReading) :
    pictureWords reading = [] ↔ join "\n" reading.lines = [] := by
  unfold pictureWords
  dsimp only
  split
  · rename_i h
    simp [h.1]
  · rfl

variable {minEdge maxPerDocument : Nat} {rendered : Nat → Option (Drawn Blob)}

/-- What one picture does: a worthwhile one is handed over while there is room, and takes a place
where it says something. -/
theorem readOne_counts (st : State) (picture : FoundPicture Blob × Nat) :
    (readOne u tools minEdge maxPerDocument rendered st picture).handed = st.handed +
      (if Worthwhile tools minEdge rendered picture = true ∧ st.results.length < maxPerDocument
        then 1 else 0) ∧
    (readOne u tools minEdge maxPerDocument rendered st picture).results.length =
      st.results.length +
      (if (Worthwhile tools minEdge rendered picture = true ∧ st.results.length < maxPerDocument) ∧
        Says tools rendered picture = true then 1 else 0) := by
  unfold readOne Worthwhile Says
  cases himage : image tools rendered picture.2 picture.1 with
  | none => simp
  | some p =>
    obtain ⟨img, labels⟩ := p
    by_cases hsmall : tools.shortEdge img < minEdge
    · simp [hsmall]
    by_cases hfull : maxPerDocument ≤ st.results.length
    · simp [hsmall, hfull]
    cases hreading : tools.tableReader img picture.1.tablesOnly labels with
    | none => simp [hsmall, hfull, hreading]
    | some reading =>
      have hnil := pictureTables_eq_nil_iff (u := u) reading
      have hwords := pictureWords_eq_nil_iff reading
      have hroom : st.results.length < maxPerDocument := by omega
      by_cases hsays : reading.tables = [] ∧ join "\n" reading.lines = []
      · simp [hsmall, hfull, hreading, hnil, hwords, hsays, hroom]
      · have hor : ¬ reading.tables = [] ∨ ¬ join "\n" reading.lines = [] := by
          rwa [← not_and_or]
        simp [hsmall, hfull, hreading, hnil, hwords, hsays, hroom, hor]

theorem handed_eq (st : State) (pictures : List (FoundPicture Blob × Nat)) :
    (pictures.foldl (readOne u tools minEdge maxPerDocument rendered) st).handed = st.handed +
      (taken (fun p => Says tools rendered p = true) (maxPerDocument - st.results.length)
        (pictures.filter (Worthwhile tools minEdge rendered))).length := by
  induction pictures generalizing st with
  | nil => simp
  | cons p pictures ih =>
    obtain ⟨hhanded, hresults⟩ := @readOne_counts _ _ u tools minEdge maxPerDocument rendered st p
    rw [List.foldl_cons, ih, hhanded, hresults, List.filter_cons]
    by_cases hworth : Worthwhile tools minEdge rendered p = true
    · by_cases hroom : st.results.length < maxPerDocument
      · obtain ⟨n, hn⟩ : ∃ n, maxPerDocument - st.results.length = n + 1 :=
          ⟨maxPerDocument - st.results.length - 1, by omega⟩
        rw [if_pos hworth, hn, taken_cons]
        by_cases hsays : Says tools rendered p = true
        · have hless : maxPerDocument - (st.results.length + 1) = n := by omega
          simp only [hworth, hroom, hsays, and_self, if_true, hless, List.length_cons]
          omega
        · simp only [hworth, hroom, hsays, and_self, if_true, if_false, and_false,
            Bool.false_eq_true, Nat.add_zero, hn, List.length_cons]
          omega
      · have hfull : maxPerDocument - st.results.length = 0 := by omega
        simp [hroom, hfull]
    · simp [hworth]

theorem read_handed (found : List (FoundPicture Blob)) :
    (read u tools minEdge maxPerDocument found).handed =
      (taken (fun p => Says tools (OfficePictureReader.rendered tools (wanted tools found)) p = true)
        maxPerDocument (forReader tools minEdge found)).length := by
  rw [read, handed_eq]
  simp [forReader]

end OfficePictureReader

/-- The pages sent and the pictures handed over stay within the limits exactly where there are no
more than the limit of them, or where as many as the limit, from the first on, all read as
something. -/
theorem ocr_work_bounded_iff {Blob Image : Type} (u : Tables) (minNativeChars maxPages : Nat)
    (pages : List PdfTextExtractor.Page) (tools : PictureTools Blob Image)
    (minEdge maxPerDocument : Nat) (found : List (FoundPicture Blob)) :
    ((PdfTextExtractor.sent u minNativeChars maxPages pages).length ≤ maxPages ∧
      (OfficePictureReader.read u tools minEdge maxPerDocument found).handed ≤ maxPerDocument) ↔
    ((PdfTextExtractor.forEngine u minNativeChars pages).length ≤ maxPages ∨
      ∀ page ∈ (PdfTextExtractor.forEngine u minNativeChars pages).take maxPages,
        PdfTextExtractor.Worded page) ∧
    ((OfficePictureReader.forReader tools minEdge found).length ≤ maxPerDocument ∨
      ∀ picture ∈ (OfficePictureReader.forReader tools minEdge found).take maxPerDocument,
        OfficePictureReader.Says tools (OfficePictureReader.rendered tools
          (OfficePictureReader.wanted tools found)) picture = true) := by
  rw [OfficePictureReader.read_handed, PdfTextExtractor.sent, PdfTextExtractor.sentFrom_eq]
  rw [length_taken_le_iff, length_taken_le_iff]

def blankScan : PdfTextExtractor.Page :=
  { text := [], images := true, reading := some ⟨[], 0⟩, ruled := none, rawTables := [] }

/-- One picture after another that says nothing. -/
def silentTools : PictureTools Nat Unit :=
  { digest := id, rasterise := fun _ _ => none, decode := fun _ => some (), shortEdge := fun _ => 400,
    tableReader := fun _ _ _ => some ⟨[], [], 0⟩ }

def photographs : List (FoundPicture Nat) :=
  [{ unitIndex := 1, heading := none, blob := 1, extension := "png" },
   { unitIndex := 1, heading := none, blob := 2, extension := "png" }]

/-- Two blank scans and two photographs go past limits of one each. -/
theorem limits_passed :
    ¬ ((PdfTextExtractor.sent asciiTables 20 1 [blankScan, blankScan]).length ≤ 1 ∧
      (OfficePictureReader.read asciiTables silentTools 100 1 photographs).handed ≤ 1) := by
  decide +kernel

end KnowledgeBase.Artifact
