import KnowledgeBase.ChartRows
import KnowledgeBase.OcrWork

/-! A workbook read twice: its worksheets for their cells, its sheets for their pictures. The first
reader numbers the worksheets, the second every sheet. -/

namespace KnowledgeBase.Artifact

open Table

/-- The cells of a worksheet as they read, and the values of merged ranges by row and column. -/
structure Worksheet where
  rows : List (List Text)
  fills : Nat → Nat → Option Text := fun _ _ => none

/-- A sheet of `workbook.xml`; a chart sheet has no cells. -/
structure Sheet where
  name : Text
  relId : String
  worksheet : Option Worksheet

/-- The parts of the file: the sheets in order, the names of the parts, what each part is related
to and the contents. -/
structure Workbook (Blob : Type) where
  sheets : List Sheet
  names : List String
  rels : String → List (String × String)
  read : String → Blob
  charts : Text → List Charts.ChartXml := fun _ => []

namespace XlsxTextExtractor

variable {Blob : Type} (u : Tables) (fmt : Charts.NumberFormat)
  (resolve : Option (Text → Option (List Text)))

def rstrip (text : Text) : Text := (text.reverse.dropWhile u.isSpace).reverse

/-- The rows of a worksheet that say something, with the merged ranges filled in. -/
def sheetRows (worksheet : Worksheet) : List (List Text) :=
  (worksheet.rows.zipIdx.map fun (row, r) =>
    row.zipIdx.map fun (cell, c) => (worksheet.fills (r + 1) (c + 1)).getD cell).filter
    (·.any (· ≠ []))

def addSheet (charts : Text → List Charts.ChartXml) (content : ExtractedContent)
    (sheet : (Text × Worksheet) × Nat) : ExtractedContent :=
  let index : Int := sheet.2 + 1
  let title := sheet.1.1
  let rows := sheetRows sheet.1.2
  let drawn := (charts title).filterMap fun chart =>
    (Charts.chartRows u fmt resolve chart).map (·.map (·.map (·.text)))
  { content with
    headings := content.headings ++ [{ text := title, level := 1, unitIndex := index }]
    tables := content.tables ++
      (if tableHasContent rows then
        [{ unitIndex := index, rows, heading := some title }] else []) ++
      drawn.map fun rows => { unitIndex := index, rows, heading := some title }
    units := content.units ++
      [{ index, label := "Sheet: ".toList ++ title,
         text := join "\n" (rows.map fun row => rstrip u (join "\t" row)),
         textIsTable := tableHasContent rows }] }

/-- `workbook.worksheets`. -/
def worksheets (workbook : Workbook Blob) : List (Text × Worksheet) :=
  workbook.sheets.filterMap fun sheet => sheet.worksheet.map fun w => (sheet.name, w)

def extract (workbook : Workbook Blob) : ExtractedContent :=
  (worksheets workbook).zipIdx.foldl (addSheet u fmt resolve workbook.charts)
    { units := [], headings := [], tables := [] }

end XlsxTextExtractor

section Pictures

variable {Blob : Type} (workbook : Workbook Blob)

def holds (part text : String) : Bool := part.toList.tails.any (text.toList.isPrefixOf ·)

/-- What follows the last dot of a name, but for the dots it begins with, in lower case. -/
def extensionOf (target : String) : String :=
  let name := (target.toList.reverse.takeWhile (· ≠ '/')).reverse.dropWhile (· = '.')
  if '.' ∈ name then
    String.ofList ((name.reverse.takeWhile (· ≠ '.')).reverse.map Char.toLower)
  else ""

/-- The pictures of one sheet, by the drawings it points at. -/
def sheetPictures (index : Int) (sheet : Sheet) : List (FoundPicture Blob) :=
  match get (workbook.rels "xl/workbook.xml") sheet.relId with
  | none => []
  | some part =>
    if part ∉ workbook.names then []
    else
      (((workbook.rels part).map (·.2)).filter fun drawing =>
        holds drawing "/drawings/" && workbook.names.contains drawing).flatMap fun drawing =>
          (((workbook.rels drawing).map (·.2)).filter fun target =>
            holds target "/media/" && workbook.names.contains target).map fun target =>
              { unitIndex := index, heading := some sheet.name, blob := workbook.read target,
                extension := extensionOf target }

/-- The sheets are numbered as they stand in `workbook.xml`. -/
def xlsxPictures : List (FoundPicture Blob) :=
  workbook.sheets.zipIdx.flatMap fun (sheet, place) => sheetPictures workbook (place + 1) sheet

end Pictures

namespace XlsxTextExtractor

variable {Blob : Type} {u : Tables} {fmt : Charts.NumberFormat}
  {resolve : Option (Text → Option (List Text))}

theorem foldl_units (charts : Text → List Charts.ChartXml)
    (sheets : List ((Text × Worksheet) × Nat)) (content : ExtractedContent) :
    (sheets.foldl (addSheet u fmt resolve charts) content).units.map (fun unit =>
      (unit.index, unit.label)) = content.units.map (fun unit => (unit.index, unit.label)) ++
        sheets.map fun sheet => ((sheet.2 : Int) + 1, "Sheet: ".toList ++ sheet.1.1) := by
  induction sheets generalizing content with
  | nil => simp
  | cons sheet sheets ih =>
    rw [List.foldl_cons, ih]
    simp [addSheet]

/-- The units are the worksheets, numbered from one. -/
theorem extract_units (workbook : Workbook Blob) (j : Nat) :
    ((extract u fmt resolve workbook).units[j]?).map (fun unit => (unit.index, unit.label)) =
      ((worksheets workbook)[j]?).map fun w => ((j : Int) + 1, "Sheet: ".toList ++ w.1) := by
  rw [← List.getElem?_map, extract, foldl_units]
  simp [List.getElem?_zipIdx, Option.map_map, Function.comp_def]

theorem foldl_headings (charts : Text → List Charts.ChartXml)
    (sheets : List ((Text × Worksheet) × Nat)) (content : ExtractedContent) :
    (sheets.foldl (addSheet u fmt resolve charts) content).headings = content.headings ++
      sheets.map fun sheet =>
        { text := sheet.1.1, level := 1, unitIndex := (sheet.2 : Int) + 1 } := by
  induction sheets generalizing content with
  | nil => simp
  | cons sheet sheets ih =>
    rw [List.foldl_cons, ih]
    simp [addSheet]

theorem find_place {α : Type} (xs : List α) (start j : Nat) :
    (xs.zipIdx start).find? (fun x => decide (((x.2 : Int) + 1) = (start + j : Nat) + 1)) =
      xs[j]?.map fun x => (x, start + j) := by
  induction xs generalizing start j with
  | nil => simp
  | cons x xs ih =>
    cases j with
    | zero => simp [List.zipIdx_cons]
    | succ j =>
      have hne : ¬ ((start : Int) + 1 = (start + (j + 1) : Nat) + 1) := by omega
      have hplace : start + (j + 1) = start + 1 + j := by omega
      rw [List.zipIdx_cons, List.find?_cons_of_neg (by simpa using hne), hplace, ih]
      simp

theorem count_place {α : Type} (xs : List α) (start j : Nat) :
    (xs.zipIdx start).countP (fun x => decide (((x.2 : Int) + 1) = (j : Nat) + 1)) ≤ 1 := by
  induction xs generalizing start with
  | nil => simp
  | cons x xs ih =>
    rw [List.zipIdx_cons, List.countP_cons]
    by_cases hstart : start = j
    · have hrest : (xs.zipIdx (start + 1)).countP
          (fun x => decide (((x.2 : Int) + 1) = (j : Nat) + 1)) = 0 := by
        rw [List.countP_eq_zero]
        intro y hy
        have hle := (List.mem_zipIdx hy).1
        simp only [decide_eq_true_eq]
        omega
      rw [hrest]
      split <;> omega
    · have hne : ¬ ((start : Int) + 1 = (j : Nat) + 1) := by omega
      simpa [hne] using ih (start + 1)

/-- What a picture says with the number of a worksheet lands in its unit, under its heading. -/
theorem lands_under_sheet {workbook : Workbook Blob} {j : Nat} {sheet : Text × Worksheet}
    (hsheet : (worksheets workbook)[j]? = some sheet) (hname : sheet.1 ≠ []) {said : PictureText}
    (hunit : said.unitIndex = (j : Int) + 1) :
    pictureUnit (extract u fmt resolve workbook) said = some ((j : Int) + 1) ∧
      pictureSection u (extract u fmt resolve workbook) said ((j : Int) + 1) = some sheet.1 := by
  have hheadings : (extract u fmt resolve workbook).headings = (worksheets workbook).zipIdx.map
      fun sheet => { text := sheet.1.1, level := 1, unitIndex := (sheet.2 : Int) + 1 } := by
    rw [extract, foldl_headings, List.nil_append]
  constructor
  · have hget := @extract_units _ u fmt resolve workbook j
    rw [hsheet, Option.map_some] at hget
    obtain ⟨unit, hget, heq⟩ := Option.map_eq_some_iff.mp hget
    have hindex : unit.index = (j : Int) + 1 := congrArg Prod.fst heq
    have hknown : said.unitIndex ∈ (extract u fmt resolve workbook).units.map (·.index) := by
      rw [hunit, ← hindex]
      exact List.mem_map_of_mem (List.mem_of_getElem? hget)
    rw [hunit] at hknown
    simp only [pictureUnit, hunit, if_pos hknown]
  · have hcount := count_place (worksheets workbook) 0 j
    have hfind := find_place (worksheets workbook) 0 j
    rw [Nat.zero_add] at hfind
    have htitle : unitTitle (extract u fmt resolve workbook) ((j : Int) + 1) = some sheet.1 := by
      rw [unitTitle, hheadings, List.find?_map, Option.map_map]
      simp only [Function.comp_def, hfind, hsheet, Option.map_some]
    have hsingle : ¬ 1 < (extract u fmt resolve workbook).headings.countP
        (·.unitIndex = (j : Int) + 1) := by
      rw [hheadings, List.countP_map]
      simpa [Function.comp_def] using hcount
    simp [pictureSection, hsingle, htitle, truthy, hname]

/-- The place of a sheet among the worksheets. -/
def worksheetPlace (workbook : Workbook Blob) (place : Nat) : Nat :=
  (workbook.sheets.take place).countP (·.worksheet.isSome)

theorem worksheets_getElem? {workbook : Workbook Blob} {place : Nat} {sheet : Sheet}
    {worksheet : Worksheet} (hsheet : workbook.sheets[place]? = some sheet)
    (hworksheet : sheet.worksheet = some worksheet) :
    (worksheets workbook)[worksheetPlace workbook place]? = some (sheet.name, worksheet) := by
  have h : ∀ (sheets : List Sheet) (place : Nat), sheets[place]? = some sheet →
      (sheets.filterMap fun sheet => sheet.worksheet.map fun w => (sheet.name, w))[
        (sheets.take place).countP (·.worksheet.isSome)]? = some (sheet.name, worksheet) := by
    intro sheets
    induction sheets with
    | nil => simp
    | cons first sheets ih =>
      intro place hget
      cases place with
      | zero =>
        obtain rfl : first = sheet := by simpa using hget
        simp [hworksheet]
      | succ place =>
        have hrest := ih place (by simpa using hget)
        cases hw : first.worksheet with
        | none => simpa [hw] using hrest
        | some w => simpa [hw] using hrest
  exact h _ _ hsheet

theorem worksheetPlace_eq_iff (workbook : Workbook Blob) {place : Nat}
    (hplace : place ≤ workbook.sheets.length) : worksheetPlace workbook place = place ↔
      ∀ sheet ∈ workbook.sheets.take place, sheet.worksheet.isSome = true := by
  have hlen : (workbook.sheets.take place).length = place := by simpa using hplace
  have hcount : worksheetPlace workbook place = (workbook.sheets.take place).length ↔
      ∀ sheet ∈ workbook.sheets.take place, sheet.worksheet.isSome = true := List.countP_eq_length
  rwa [hlen] at hcount

/-- A picture placed on a worksheet is filed under the unit of that worksheet exactly where no sheet
before it is a chart sheet. -/
theorem pictures_filed_iff (u : Tables) (fmt : Charts.NumberFormat)
    (resolve : Option (Text → Option (List Text))) (workbook : Workbook Blob) :
    (∀ (place : Nat) (sheet : Sheet), workbook.sheets[place]? = some sheet →
      sheet.worksheet.isSome = true → ∀ picture ∈ sheetPictures workbook (place + 1) sheet,
        ((extract u fmt resolve workbook).units[worksheetPlace workbook place]?).map (·.index) =
          some picture.unitIndex) ↔
      ∀ (place : Nat) (sheet : Sheet), workbook.sheets[place]? = some sheet →
        sheet.worksheet.isSome = true → sheetPictures workbook (place + 1) sheet ≠ [] →
          ∀ before ∈ workbook.sheets.take place, before.worksheet.isSome = true := by
  have hindex : ∀ (index : Int) (sheet : Sheet), ∀ picture ∈ sheetPictures workbook index sheet,
      picture.unitIndex = index := by
    intro index sheet picture hpicture
    unfold sheetPictures at hpicture
    split at hpicture
    · cases hpicture
    · split at hpicture
      · cases hpicture
      · obtain ⟨drawing, -, hpicture⟩ := List.mem_flatMap.mp hpicture
        obtain ⟨target, -, rfl⟩ := List.mem_map.mp hpicture
        rfl
  have hunit : ∀ (place : Nat) (sheet : Sheet), workbook.sheets[place]? = some sheet →
      sheet.worksheet.isSome = true →
      ((extract u fmt resolve workbook).units[worksheetPlace workbook place]?).map (·.index) =
        some ((worksheetPlace workbook place : Int) + 1) := by
    intro place sheet hsheet hworksheet
    obtain ⟨worksheet, hworksheet⟩ := Option.isSome_iff_exists.mp hworksheet
    have hunits := @extract_units _ u fmt resolve workbook (worksheetPlace workbook place)
    rw [worksheets_getElem? hsheet hworksheet, Option.map_some] at hunits
    obtain ⟨unit, hget, heq⟩ := Option.map_eq_some_iff.mp hunits
    rw [hget, Option.map_some]
    exact congrArg some (congrArg Prod.fst heq)
  have hsame : ∀ (place : Nat) (sheet : Sheet), workbook.sheets[place]? = some sheet →
      sheet.worksheet.isSome = true → ∀ picture ∈ sheetPictures workbook (place + 1) sheet,
        (((extract u fmt resolve workbook).units[worksheetPlace workbook place]?).map (·.index) =
          some picture.unitIndex ↔
            ∀ before ∈ workbook.sheets.take place, before.worksheet.isSome = true) := by
    intro place sheet hsheet hworksheet picture hpicture
    have hlt := (List.getElem?_eq_some_iff.mp hsheet).1
    rw [hunit place sheet hsheet hworksheet, hindex _ sheet picture hpicture,
      ← worksheetPlace_eq_iff workbook (Nat.le_of_lt hlt), Option.some.injEq]
    omega
  constructor
  · intro h place sheet hsheet hworksheet hne
    obtain ⟨picture, hpicture⟩ := List.exists_mem_of_ne_nil _ hne
    exact (hsame place sheet hsheet hworksheet picture hpicture).mp
      (h place sheet hsheet hworksheet picture hpicture)
  · intro h place sheet hsheet hworksheet picture hpicture
    exact (hsame place sheet hsheet hworksheet picture hpicture).mpr
      (h place sheet hsheet hworksheet (List.ne_nil_of_mem hpicture))

/-- A chart sheet between two worksheets, and a picture on the second of these. -/
def plantReport : Workbook String where
  sheets := [{ name := "Data".toList, relId := "rId1", worksheet := some { rows := [] } },
    { name := "Trend".toList, relId := "rId2", worksheet := none },
    { name := "Plants".toList, relId := "rId3", worksheet := some { rows := [] } }]
  names := ["xl/workbook.xml", "xl/worksheets/sheet1.xml", "xl/chartsheets/sheet1.xml",
    "xl/worksheets/sheet2.xml", "xl/drawings/drawing1.xml", "xl/media/image1.png"]
  rels := fun part =>
    if part = "xl/workbook.xml" then [("rId1", "xl/worksheets/sheet1.xml"),
      ("rId2", "xl/chartsheets/sheet1.xml"), ("rId3", "xl/worksheets/sheet2.xml")]
    else if part = "xl/worksheets/sheet2.xml" then [("rId1", "xl/drawings/drawing1.xml")]
    else if part = "xl/drawings/drawing1.xml" then [("rId1", "xl/media/image1.png")]
    else []
  read := fun part => part

/-- The worksheet is the second unit, and its picture is filed under the number three. -/
theorem chart_sheet_misfiles : ¬ ∀ (place : Nat) (sheet : Sheet),
    plantReport.sheets[place]? = some sheet → sheet.worksheet.isSome = true →
      ∀ picture ∈ sheetPictures plantReport (place + 1) sheet,
        ((extract asciiTables Charts.plainFormat none plantReport).units[
          worksheetPlace plantReport place]?).map (·.index) = some picture.unitIndex := by
  intro h
  have hunit : ((extract asciiTables Charts.plainFormat none plantReport).units[
      worksheetPlace plantReport 2]?).map (·.index) = some 2 := by decide +kernel
  have hfiled := h 2 _ rfl rfl
  rw [hunit] at hfiled
  have hnumber : ∀ picture ∈ plantReport.sheets[2]?.elim [] (sheetPictures plantReport (2 + 1)),
      some 2 ≠ some picture.unitIndex := by decide +kernel
  have hpicture : plantReport.sheets[2]?.elim [] (sheetPictures plantReport (2 + 1)) ≠ [] := by
    decide +kernel
  obtain ⟨picture, hmem⟩ := List.exists_mem_of_ne_nil _ hpicture
  exact hnumber picture hmem (hfiled picture hmem)

end XlsxTextExtractor

end KnowledgeBase.Artifact
