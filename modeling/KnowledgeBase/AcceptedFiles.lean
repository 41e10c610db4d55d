import KnowledgeBase.Formats
import KnowledgeBase.Origins

/-! What validation promises of a file: what the checks come to, that the format told from the
bytes is one that validation agrees with, that no entry of an accepted archive leaves the
directory it is unpacked in, and that nothing else ever reaches the raw bucket. -/

namespace KnowledgeBase

open Unpacking Transition

/-- How a path is read. -/
inductive Os where
  | posix | windows

namespace Os

def separator : Os → Char → Bool
  | posix, c => c == '/'
  | windows, c => c == '/' || c == '\\'

/-- The path begins at a root or at a drive, not at the directory it is joined to. -/
def anchored : Os → Text → Bool
  | posix, name => name.head?.any posix.separator
  | windows, name => name.head?.any windows.separator || name[1]? == some ':'

def component (piece : Text) : Component Text :=
  if piece = [] ∨ piece = ['.'] then .here
  else if piece = ['.', '.'] then .up
  else .into piece

/-- The directory or file that an entry of an archive is unpacked to. -/
def landing (os : Os) (dir : List Text) (name : Text) : Option (List Text) :=
  if os.anchored name then none
  else some (walk dir ((name.splitOnP os.separator).map component))

end Os

namespace Formats

variable {T : FormatTools} {data : Bytes} {spec : FormatSpec}

section Entries

theorem component_up {piece : Text} (h : Os.component piece = .up) : piece = ['.', '.'] := by
  unfold Os.component at h
  split at h
  · cases h
  · split at h
    · assumption
    · cases h

theorem slashed_separator (os : Os) {c : Char} (h : os.separator c = true) : slashed c = '/' := by
  cases os with
  | posix =>
    obtain rfl := eq_of_beq h
    rfl
  | windows =>
    simp only [Os.separator, Bool.or_eq_true, beq_iff_eq] at h
    rcases h with rfl | rfl <;> rfl

theorem rooted_refused {name : Text} {os : Os} (h : name.head?.any os.separator = true) :
    isUnsafeEntry name = true := by
  cases name with
  | nil => cases h
  | cons c name =>
    have hc : slashed c = '/' := slashed_separator os h
    have hroot : ['/'].isPrefixOf (normalised (c :: name)) = true := by
      simp [normalised, hc]
    rw [isUnsafeEntry, hroot, Bool.true_or, Bool.true_or]

theorem drive_refused {name : Text} (h : name[1]? = some ':') : isUnsafeEntry name = true := by
  have hlen : 1 < (normalised name).length := by
    rw [normalised, List.length_map]
    exact (List.getElem?_eq_some_iff.mp h).1
  have hcolon : (normalised name)[1]? = some ':' := by
    rw [normalised, List.getElem?_map, h]
    rfl
  rw [isUnsafeEntry, hcolon, decide_eq_true hlen, decide_eq_true rfl, Bool.and_self, Bool.or_true]

theorem not_anchored {name : Text} (h : isUnsafeEntry name = false) (os : Os) :
    os.anchored name = false := by
  rw [← Bool.not_eq_true] at h ⊢
  intro ha
  cases os with
  | posix => exact h (rooted_refused ha)
  | windows =>
    rcases Bool.or_eq_true_iff.mp ha with hroot | hdrive
    · exact h (rooted_refused hroot)
    · exact h (drive_refused (eq_of_beq hdrive))

theorem never_up {name : Text} (h : isUnsafeEntry name = false) (os : Os) :
    ∀ c ∈ (name.splitOnP os.separator).map Os.component, c ≠ .up := by
  rintro c hc rfl
  obtain ⟨piece, hpiece, hup⟩ := List.mem_map.mp hc
  obtain rfl := component_up hup
  have hslash : ∀ c, os.separator c = true → (slashed c == '/') = true :=
    fun c hc => beq_iff_eq.mpr (slashed_separator os hc)
  have hdots : ∀ c ∈ ['.', '.'], (slashed c == '/') = false := by simp [slashed]
  have hmem : ['.', '.'] ∈ (normalised name).splitOnP (· == '/') :=
    map_mem_splitOnP hslash hdots hpiece
  simp only [isUnsafeEntry, Bool.or_eq_false_iff] at h
  have hnot := h.1.2
  rw [List.splitOn_eq_splitOnP, ← Bool.not_eq_true, List.contains_iff_mem] at hnot
  exact hnot hmem

/-- Unpacked on either system, the entry stays below the directory it is unpacked in. -/
def Contained (name : Text) : Prop :=
  ∀ (os : Os) (dir : List Text), ∃ path, os.landing dir name = some path ∧ dir <+: path

theorem contained_of_safe {name : Text} (h : isUnsafeEntry name = false) : Contained name :=
  fun os dir => ⟨_, if_neg (by rw [not_anchored h]; exact Bool.false_ne_true),
    prefix_walk (never_up h os) dir⟩

end Entries

section Checks

theorem occurs_iff {needle : Bytes} : occurs needle data = true ↔ needle <:+: data :=
  decide_eq_true_iff

theorem pdfContainer_ok : (pdfContainer data).ok = true ↔
    pdfMagic <+: data ∧ pdfTrailer <:+: data.drop (data.length - 1024) := by
  have hwindow : (if data.length ≥ 1024 then data.drop (data.length - 1024) else data) =
      data.drop (data.length - 1024) := by
    split
    · rfl
    · rw [Nat.sub_eq_zero_of_le (by omega), List.drop_zero]
  rw [pdfContainer, hwindow]
  split
  next h => simp [StructuralResult.refused, h]
  next h =>
    rw [not_not] at h
    split
    next ht =>
      rw [Bool.not_eq_true', ← Bool.not_eq_true, occurs_iff] at ht
      simp [StructuralResult.refused, ht]
    next ht =>
      rw [Bool.not_eq_true', Bool.not_eq_false, occurs_iff] at ht
      simp [StructuralResult.passed, h, ht]

theorem pdfStructure_ok : (pdfStructure T data).ok = true ↔
    ∃ count, T.readPdf data = .pages count ∧ count ≤ T.maxPdfPages := by
  rw [pdfStructure]
  cases T.readPdf data with
  | raises message =>
    refine ⟨fun h => ?_, fun ⟨_, h, _⟩ => nomatch h⟩
    dsimp only at h
    split at h <;> cases h
  | encrypted => exact ⟨nofun, fun ⟨_, h, _⟩ => nomatch h⟩
  | pages count =>
    dsimp only
    split
    next hc =>
      refine ⟨nofun, fun ⟨_, h, hle⟩ => ?_⟩
      obtain rfl := PdfReading.pages.inj h
      exact absurd hle (Nat.not_le_of_gt hc)
    next hc => exact ⟨fun _ => ⟨count, rfl, Nat.le_of_not_gt hc⟩, fun _ => rfl⟩

theorem ooxmlContainer_ok : (ooxmlContainer T data).ok = true ↔ ¬ oleMagic <+: data ∧
    ∃ infolist, T.archive data = some infolist ∧
      hasPart T (infolist.map ZipInfo.filename) (some contentTypesPart) = true := by
  rw [ooxmlContainer]
  by_cases hole : oleMagic <+: data
  · rw [if_pos hole]
    exact ⟨nofun, fun h => absurd hole h.1⟩
  · rw [if_neg hole]
    cases ha : T.archive data with
    | none => exact ⟨nofun, fun ⟨_, _, h, _⟩ => nomatch h⟩
    | some infolist =>
      dsimp only
      cases hp : hasPart T (infolist.map ZipInfo.filename) (some contentTypesPart) with
      | false =>
        refine ⟨nofun, fun ⟨_, _, h, hparts⟩ => ?_⟩
        obtain rfl := Option.some.inj h
        rw [hp] at hparts
        cases hparts
      | true => exact ⟨fun _ => ⟨hole, infolist, rfl, hp⟩, fun _ => rfl⟩

/-- What is asked of the entries of an archive, whatever its format. -/
structure Orderly (T : FormatTools) (infolist : List ZipInfo) : Prop where
  entries : infolist.length ≤ maxOoxmlEntries
  size : (infolist.map ZipInfo.fileSize).sum ≤ maxOoxmlUncompressedBytes
  macros : hasEntryNamed T (infolist.map ZipInfo.filename) "vbaProject.bin" = false
  safe : ∀ name ∈ infolist.map ZipInfo.filename, isUnsafeEntry name = false

theorem ooxmlStructure_ok : (ooxmlStructure T data spec).ok = true ↔
    ∃ infolist, T.archive data = some infolist ∧ Orderly T infolist ∧
      hasPart T (infolist.map ZipInfo.filename) spec.zipMarker = true := by
  rw [ooxmlStructure]
  cases ha : T.archive data with
  | none => exact ⟨nofun, fun ⟨_, h, _⟩ => nomatch h⟩
  | some infolist =>
    dsimp only
    have hinv : ∀ {P : List ZipInfo → Prop}, (∃ l, some infolist = some l ∧ P l) → P infolist := by
      rintro P ⟨l, hl, hP⟩
      exact Option.some.inj hl ▸ hP
    split
    next h => exact ⟨nofun, fun h' => absurd (hinv h').1.entries (Nat.not_le_of_gt h)⟩
    next hentries =>
      split
      next h => exact ⟨nofun, fun h' => absurd (hinv h').1.size (Nat.not_le_of_gt h)⟩
      next hsize =>
        split
        next h => exact ⟨nofun, fun h' => nomatch (hinv h').1.macros.symm.trans h⟩
        next hmacros =>
          split
          next entry hfind =>
            refine ⟨nofun, fun h' => ?_⟩
            have hsafe := (hinv h').1.safe entry (List.mem_of_find?_eq_some hfind)
            exact nomatch hsafe.symm.trans (List.find?_some hfind)
          next hfind =>
            have hsafe : ∀ name ∈ infolist.map ZipInfo.filename, isUnsafeEntry name = false :=
              fun name hname => Bool.eq_false_iff.mpr (List.find?_eq_none.mp hfind name hname)
            split
            next h =>
              refine ⟨nofun, fun h' => ?_⟩
              rw [(hinv h').2] at h
              cases h
            next h =>
              exact ⟨fun _ => ⟨infolist, rfl, ⟨Nat.le_of_not_gt hentries, Nat.le_of_not_gt hsize,
                Bool.eq_false_iff.mpr hmacros, hsafe⟩, by simpa using h⟩, fun _ => rfl⟩

theorem scan_passed : (ClamAVScanner.scan data).passed = true ↔
    ∀ s ∈ ClamAVScanner.maliciousSignatures, ¬ asciiBytes s <:+: data := by
  simp only [ClamAVScanner.scan, List.isEmpty_iff, List.filter_eq_nil_iff, occurs_iff]

/-- What is asked of a file taken for one of the formats. -/
structure Accepted (T : FormatTools) (data : Bytes) (spec : FormatSpec) : Prop where
  nonempty : data.length ≠ 0
  size : data.length ≤ FileValidator.maxFileSizeBytes
  clean : ∀ s ∈ ClamAVScanner.maliciousSignatures, ¬ asciiBytes s <:+: data
  container : (containerCheck T data spec).ok = true
  structural : (structuralCheck T data spec).ok = true

theorem validate_accepted {mimeType : String} (hspec : specFor mimeType = some spec)
    (h : Accepted T data spec) : (FileValidator.validate T data mimeType).toValidationResult =
      { isValid := true, sha256 := T.sha256 data, rejectionReason := none,
        pageCount := (structuralCheck T data spec).unitCount } := by
  have hscan := scan_passed.mpr h.clean
  rw [FileValidator.validate, if_neg h.nonempty, if_neg (Nat.not_lt_of_le h.size), hspec]
  simp only [h.container, h.structural, hscan, Bool.not_true, Bool.false_eq_true, if_false]

theorem validate_isValid {mimeType : String} :
    (FileValidator.validate T data mimeType).isValid = true ↔
      ∃ spec, specFor mimeType = some spec ∧ Accepted T data spec := by
  constructor
  · intro h
    rw [FileValidator.validate] at h
    split at h
    · cases h
    next hnonempty =>
      split at h
      · cases h
      next hsize =>
        split at h
        · cases h
        next spec hspec =>
          dsimp only at h
          split at h
          · cases h
          next hcontainer =>
            split at h
            · cases h
            next hscan =>
              split at h
              · cases h
              next hstructural =>
                rw [Bool.not_eq_true', Bool.not_eq_false] at hcontainer hscan hstructural
                exact ⟨spec, hspec, hnonempty, Nat.le_of_not_gt hsize, scan_passed.mp hscan,
                  hcontainer, hstructural⟩
  · rintro ⟨spec, hspec, h⟩
    rw [validate_accepted hspec h]

end Checks

section Detection

theorem of_specFor {mimeType : String} (h : specFor mimeType = some spec) :
    spec ∈ formats ∧ spec.mimeType = mimeType :=
  ⟨List.mem_of_find?_eq_some h,
    of_decide_eq_true (List.find?_some (p := fun s : FormatSpec => s.mimeType = mimeType) h)⟩

theorem formats_cases (h : spec ∈ formats) :
    spec = pdfSpec ∨ spec = docxSpec ∨ spec = xlsxSpec ∨ spec = pptxSpec := by
  simpa only [formats, List.mem_cons, List.not_mem_nil, or_false] using h

theorem specFor_self (h : spec ∈ formats) : specFor spec.mimeType = some spec := by
  rcases formats_cases h with rfl | rfl | rfl | rfl <;> rfl

theorem pdf_of_family (h : spec ∈ formats) (hpdf : spec.family = .pdf) : spec = pdfSpec := by
  rcases formats_cases h with rfl | rfl | rfl | rfl
  · rfl
  all_goals cases hpdf

theorem ooxml_of_mem (h : spec ∈ ooxmlSpecs) : spec ∈ formats ∧ spec.family = .ooxml := by
  obtain ⟨hmem, hmarker⟩ := List.mem_filter.mp h
  refine ⟨hmem, ?_⟩
  rcases formats_cases hmem with rfl | rfl | rfl | rfl
  · cases hmarker
  all_goals rfl

theorem mem_ooxmlSpecs (h : spec ∈ formats) (hooxml : spec.family = .ooxml) :
    spec ∈ ooxmlSpecs := by
  refine List.mem_filter.mpr ⟨h, ?_⟩
  rcases formats_cases h with rfl | rfl | rfl | rfl
  · cases hooxml
  all_goals rfl

/-- The extension that a key gets is that of the format. -/
theorem extensionFor_specFor (mimeType : String) :
    extensionFor mimeType = ((specFor mimeType).map FormatSpec.extension).getD ".pdf" := by
  cases hs : specFor mimeType with
  | some spec =>
    obtain ⟨hmem, rfl⟩ := of_specFor hs
    rcases formats_cases hmem with rfl | rfl | rfl | rfl <;> rfl
  | none =>
    have hnot : ∀ {other : FormatSpec}, other ∈ formats → mimeType ≠ other.mimeType := by
      rintro other hmem rfl
      rw [specFor_self hmem] at hs
      cases hs
    have hdocx : mimeType ≠ docxSpec.mimeType := hnot (by simp [formats])
    have hxlsx : mimeType ≠ xlsxSpec.mimeType := hnot (by simp [formats])
    have hpptx : mimeType ≠ pptxSpec.mimeType := hnot (by simp [formats])
    exact (if_neg hdocx).trans ((if_neg hxlsx).trans (if_neg hpptx))

theorem of_detectFormat (h : detectFormat T data = some spec) :
    pdfMagic <+: data ∧ spec = pdfSpec ∨ zipMagic <+: data ∧ spec ∈ ooxmlSpecs ∧
      ∃ infolist, T.archive data = some infolist ∧
        hasPart T (infolist.map ZipInfo.filename) spec.zipMarker = true := by
  rw [detectFormat] at h
  split at h
  next hpdf => exact .inl ⟨hpdf, (Option.some.inj h).symm⟩
  next =>
    split at h
    next hzip =>
      split at h
      · cases h
      next infolist ha =>
        have hpart := List.find?_some (p := fun other : FormatSpec =>
          hasPart T (infolist.map ZipInfo.filename) other.zipMarker) h
        exact .inr ⟨hzip, List.mem_of_find?_eq_some h, infolist, ha, hpart⟩
    · cases h

theorem detected_mem (h : detectFormat T data = some spec) : spec ∈ formats := by
  rcases of_detectFormat h with ⟨-, rfl⟩ | ⟨-, hmem, -⟩
  · exact List.mem_cons_self
  · exact (ooxml_of_mem hmem).1

/-- What detection leaves open of a file. -/
structure Intact (T : FormatTools) (data : Bytes) (spec : FormatSpec) : Prop where
  pdf : spec.family = .pdf → pdfTrailer <:+: data.drop (data.length - 1024) ∧
    ∃ count, T.readPdf data = .pages count ∧ count ≤ T.maxPdfPages
  ooxml : spec.family = .ooxml → ∃ infolist, T.archive data = some infolist ∧
    hasPart T (infolist.map ZipInfo.filename) (some contentTypesPart) = true ∧
    Orderly T infolist

theorem Accepted.intact (h : Accepted T data spec) : Intact T data spec := by
  have hcontainer := h.container
  have hstructural := h.structural
  rw [containerCheck] at hcontainer
  rw [structuralCheck] at hstructural
  constructor
  · intro hpdf
    rw [hpdf] at hcontainer hstructural
    exact ⟨(pdfContainer_ok.mp hcontainer).2, pdfStructure_ok.mp hstructural⟩
  · intro hooxml
    rw [hooxml] at hcontainer hstructural
    obtain ⟨-, infolist, ha, hparts⟩ := ooxmlContainer_ok.mp hcontainer
    obtain ⟨infolist', ha', horderly, -⟩ := ooxmlStructure_ok.mp hstructural
    obtain rfl := Option.some.inj (ha.symm.trans ha')
    exact ⟨infolist, ha, hparts, horderly⟩

/-- No two formats begin alike. -/
theorem not_ole_of_zip (h : zipMagic <+: data) : ¬ oleMagic <+: data := by
  rintro ⟨rest, rfl⟩
  obtain ⟨rest', h⟩ := h
  exact absurd (List.cons.inj h).1 (by decide)

theorem not_pdf_of_zip (h : zipMagic <+: data) : ¬ pdfMagic <+: data := by
  rintro ⟨rest, rfl⟩
  obtain ⟨rest', h⟩ := h
  exact absurd (List.cons.inj h).1 (by decide)

theorem not_empty_of_magic {c : UInt8} {magic : Bytes} (h : c :: magic <+: data) :
    data.length ≠ 0 := by
  obtain ⟨rest, rfl⟩ := h
  exact Nat.succ_ne_zero _

/-- A file is accepted as what it is detected to be, unless it is too large, carries a known
signature or is not intact. -/
theorem detected_accepted (hd : detectFormat T data = some spec) :
    (FileValidator.validate T data spec.mimeType).isValid = true ↔
      data.length ≤ FileValidator.maxFileSizeBytes ∧
      (∀ s ∈ ClamAVScanner.maliciousSignatures, ¬ asciiBytes s <:+: data) ∧
      Intact T data spec := by
  rw [validate_isValid]
  constructor
  · rintro ⟨spec', hspec, h⟩
    obtain rfl := Option.some.inj ((specFor_self (detected_mem hd)).symm.trans hspec)
    exact ⟨h.size, h.clean, h.intact⟩
  · rintro ⟨hsize, hclean, h⟩
    rcases of_detectFormat hd with ⟨hpdf, rfl⟩ | ⟨hzip, hmem, infolist, ha, hpart⟩
    · obtain ⟨htrailer, hpages⟩ := h.pdf rfl
      exact ⟨pdfSpec, rfl, not_empty_of_magic hpdf, hsize, hclean,
        pdfContainer_ok.mpr ⟨hpdf, htrailer⟩, pdfStructure_ok.mpr hpages⟩
    · obtain ⟨hformat, hooxml⟩ := ooxml_of_mem hmem
      obtain ⟨infolist', ha', hparts, horderly⟩ := h.ooxml hooxml
      obtain rfl := Option.some.inj (ha.symm.trans ha')
      refine ⟨spec, specFor_self hformat, not_empty_of_magic hzip, hsize, hclean, ?_, ?_⟩
      · rw [containerCheck, hooxml]
        exact ooxmlContainer_ok.mpr ⟨not_ole_of_zip hzip, infolist, ha, hparts⟩
      · rw [structuralCheck, hooxml]
        exact ooxmlStructure_ok.mpr ⟨infolist, ha, horderly, hpart⟩

/-- And an accepted file is detected as what it was taken for, if an archive begins with the
first byte and has the main part of no other format. -/
theorem accepted_detected {mimeType : String} (hspec : specFor mimeType = some spec)
    (hvalid : (FileValidator.validate T data mimeType).isValid = true)
    (hplain : spec.family = .ooxml → zipMagic <+: data ∧ ∀ infolist,
      T.archive data = some infolist → ∀ other ∈ ooxmlSpecs,
        hasPart T (infolist.map ZipInfo.filename) other.zipMarker = true → other = spec) :
    detectFormat T data = some spec := by
  obtain ⟨spec', hspec', h⟩ := validate_isValid.mp hvalid
  obtain rfl := Option.some.inj (hspec.symm.trans hspec')
  have hcontainer := h.container
  have hstructural := h.structural
  rw [containerCheck] at hcontainer
  rw [structuralCheck] at hstructural
  cases hfamily : spec.family with
  | pdf =>
    rw [hfamily] at hcontainer
    rw [detectFormat, if_pos (pdfContainer_ok.mp hcontainer).1,
      pdf_of_family (of_specFor hspec).1 hfamily]
  | ooxml =>
    rw [hfamily] at hstructural
    obtain ⟨hzip, hone⟩ := hplain hfamily
    obtain ⟨infolist, ha, -, hpart⟩ := ooxmlStructure_ok.mp hstructural
    rw [detectFormat, if_neg (not_pdf_of_zip hzip), if_pos hzip, ha]
    have hmem := mem_ooxmlSpecs (of_specFor hspec).1 hfamily
    let hasMain (s : FormatSpec) : Bool := hasPart T (infolist.map ZipInfo.filename) s.zipMarker
    have hfound : (ooxmlSpecs.find? hasMain).isSome = true :=
      List.find?_isSome.mpr ⟨spec, hmem, hpart⟩
    obtain ⟨other, hother⟩ := Option.isSome_iff_exists.mp hfound
    obtain rfl := hone infolist ha other (List.mem_of_find?_eq_some hother)
      (List.find?_some (p := hasMain) hother)
    exact hother

end Detection

/-- No entry of an archive that is accepted is unpacked outside the directory chosen for it,
however the system reads paths. -/
theorem accepted_contained {mimeType : String} (hspec : specFor mimeType = some spec)
    (hooxml : spec.family = .ooxml)
    (hvalid : (FileValidator.validate T data mimeType).isValid = true) :
    ∃ infolist, T.archive data = some infolist ∧ ∀ info ∈ infolist, Contained info.filename := by
  obtain ⟨spec', hspec', h⟩ := validate_isValid.mp hvalid
  obtain rfl := Option.some.inj (hspec.symm.trans hspec')
  obtain ⟨infolist, ha, -, horderly⟩ := h.intact.ooxml hooxml
  exact ⟨infolist, ha, fun info hinfo =>
    contained_of_safe (horderly.safe _ (List.mem_map_of_mem hinfo))⟩

end Formats

/-- The pipeline with the validator that it runs with. -/
def FormatTools.services (T : FormatTools) (sv : Services) : Services :=
  { sv with validateDocument := fun data mimeType =>
      (FileValidator.validate T data mimeType).toValidationResult }

section Archive

open Formats

variable {T : FormatTools} {sv : Services} {fleet : Fleet}

end Archive

section Examples

open Formats

/-- An archive of the two parts that make a Word document, both empty. -/
def tinyDocx : Bytes :=
  zipMagic ++ [20, 0, 0, 0, 0, 0, 0, 0, 33, 0] ++ List.replicate 12 0 ++ [19, 0, 0, 0] ++
    asciiBytes "[Content_Types].xml" ++
  zipMagic ++ [20, 0, 0, 0, 0, 0, 0, 0, 33, 0] ++ List.replicate 12 0 ++ [17, 0, 0, 0] ++
    asciiBytes "word/document.xml" ++
  [80, 75, 1, 2, 20, 3, 20, 0, 0, 0, 0, 0, 0, 0, 33, 0] ++ List.replicate 12 0 ++ [19] ++
    List.replicate 11 0 ++ [128, 1, 0, 0, 0, 0] ++ asciiBytes "[Content_Types].xml" ++
  [80, 75, 1, 2, 20, 3, 20, 0, 0, 0, 0, 0, 0, 0, 33, 0] ++ List.replicate 12 0 ++ [17] ++
    List.replicate 11 0 ++ [128, 1, 49, 0, 0, 0] ++ asciiBytes "word/document.xml" ++
  [80, 75, 5, 6, 0, 0, 0, 0, 2, 0, 2, 0, 128, 0, 0, 0, 96, 0, 0, 0, 0, 0]

def tinyTools : FormatTools where
  archive data :=
    if data = tinyDocx then
      some [⟨"[Content_Types].xml".toList, 0⟩, ⟨"word/document.xml".toList, 0⟩]
    else none
  readPdf _ := .raises "invalid pdf header"
  sha256 data :=
    if data = tinyDocx then "617877f261ed32bdbcad2bbce7391fe223f8d1f049f689f50ef762bede347755"
    else ""
  casefold t := t.map Char.toLower
  lower s := s.toList.map Char.toLower
  repr t := "'" ++ String.ofList t ++ "'"
  maxPdfPages := 5000

theorem tinyDocx_detected : detectFormat tinyTools tinyDocx = some docxSpec := by decide +kernel

theorem tinyDocx_valid :
    (FileValidator.validate tinyTools tinyDocx docxMime).isValid = true := by decide +kernel

theorem tinyDocx_archive : tinyTools.archive tinyDocx =
    some [⟨"[Content_Types].xml".toList, 0⟩, ⟨"word/document.xml".toList, 0⟩] := by
  simp only [tinyTools, if_true]

theorem tinyDocx_accepted :
    (FileValidator.validate tinyTools tinyDocx docxSpec.mimeType).isValid = true ↔
      tinyDocx.length ≤ FileValidator.maxFileSizeBytes ∧
      (∀ s ∈ ClamAVScanner.maliciousSignatures, ¬ asciiBytes s <:+: tinyDocx) ∧
      Intact tinyTools tinyDocx docxSpec :=
  detected_accepted tinyDocx_detected

theorem tinyDocx_detected_again : detectFormat tinyTools tinyDocx = some docxSpec := by
  refine accepted_detected rfl tinyDocx_valid fun _ => ⟨by decide, fun infolist ha => ?_⟩
  obtain rfl := Option.some.inj (tinyDocx_archive.symm.trans ha)
  decide +kernel

theorem tinyDocx_contained : ∃ infolist, tinyTools.archive tinyDocx = some infolist ∧
    ∀ info ∈ infolist, Contained info.filename :=
  accepted_contained rfl rfl tinyDocx_valid

/-- The document is uploaded and scanned. -/
def docxRun : List ArchiveAction :=
  ([RunAction.receive 0 "memo.docx" tinyDocx plainRequest docxMime] ++
    List.replicate 4 (RunAction.upload 0 .fine) ++ [RunAction.endUpload 0] ++
    jobRun 0 0 10).map fun a => .erasing (.run a)

def docxArchive : ErasingState :=
  finalState (archiveStep (tinyTools.services plainServices) plainFleet) freshDeletes docxRun

theorem docx_runs : Runs (archiveStep (tinyTools.services plainServices) plainFleet)
    (fun _ _ => True) freshDeletes docxRun docxArchive := runs_of_exec_free (by decide +kernel)

end Examples

end KnowledgeBase
