import KnowledgeBase.Extraction

/-! What an extraction says of its OCR: the pages it lists as read, the pages it lists as skipped
and the method. A page is listed where OCR left it a text, and a scan that is all table has none. -/

namespace KnowledgeBase.Artifact.PdfTextExtractor

section Pages

variable (u : Tables) (page : Page) (index : Int)

/-- The lines the engine reads on a page. -/
def wordsRead (page : Page) : Text :=
  match page.read with
  | none => []
  | some read => join "\n" read.lines

/-- The lines outside the ruled tables of a page that has some. -/
def wordsOutside (page : Page) : Option Text :=
  match page.ruled with
  | none => none
  | some reading => if reading.tables = [] then none else some (join "\n" reading.lines)

/-- Everything read on the page is in its tables. -/
def WhollyTabular (page : Page) : Prop := wordsRead page ≠ [] ∧ wordsOutside page = some []

instance (page : Page) : Decidable (WhollyTabular page) :=
  inferInstanceAs (Decidable (_ ∧ _))

/-- OCR leaves the page a text of its own. -/
def Worded (page : Page) : Prop := wordsRead page ≠ [] ∧ wordsOutside page ≠ some []

instance (page : Page) : Decidable (Worded page) := inferInstanceAs (Decidable (_ ∧ _))

theorem scanTables_eq_nil_iff : (scanTables u page index).1 = [] ↔ wordsOutside page = none := by
  unfold scanTables wordsOutside
  cases page.ruled with
  | none => simp
  | some reading => by_cases h : reading.tables = [] <;> simp [h]

theorem scanTables_text {rest : Text} (h : wordsOutside page = some rest) :
    (scanTables u page index).2 = rest := by
  unfold wordsOutside at h
  unfold scanTables
  cases hruled : page.ruled with
  | none => simp [hruled] at h
  | some reading =>
    by_cases hne : reading.tables = []
    · simp [hruled, hne] at h
    · simpa [hruled, hne] using h

theorem ocrPage_blank (h : wordsRead page = []) : ocrPage u page index = ([], []) := by
  unfold wordsRead at h
  unfold ocrPage
  split at h
  · simp [*]
  · simp [*]

theorem ocrPage_tables (h : wordsRead page ≠ []) :
    (ocrPage u page index).2 = (scanTables u page index).1 := by
  unfold wordsRead at h
  unfold ocrPage
  split at h
  · exact absurd rfl h
  · simp [*]

theorem ocrPage_text_iff : (ocrPage u page index).1 ≠ [] ↔ Worded page := by
  by_cases hwords : wordsRead page = []
  · simp [ocrPage_blank u page index hwords, Worded, hwords]
  have htext : (ocrPage u page index).1 ≠ [] ↔
      (if (scanTables u page index).1 = [] then wordsRead page
        else (scanTables u page index).2) ≠ [] := by
    unfold wordsRead at hwords ⊢
    unfold ocrPage
    split at hwords
    · exact absurd rfl hwords
    · rename_i read hread
      simp only [hread, if_neg hwords]
      -- the notice is only added to what is not empty
      split <;> split <;> simp [*]
  rw [htext]
  cases hout : wordsOutside page with
  | none => simp [(scanTables_eq_nil_iff u page index).mpr hout, Worded, hwords, hout]
  | some rest =>
    have hne : (scanTables u page index).1 ≠ [] := by
      rw [ne_eq, scanTables_eq_nil_iff, hout]
      simp
    simp [hne, scanTables_text u page index hout, Worded, hwords, hout]

/-- A scan gives tables without a text exactly where it is all table. -/
theorem ocrPage_wholly_iff :
    (ocrPage u page index).1 = [] ∧ (ocrPage u page index).2 ≠ [] ↔ WhollyTabular page := by
  by_cases hwords : wordsRead page = []
  · simp [ocrPage_blank u page index hwords, WhollyTabular, hwords]
  have htext := ocrPage_text_iff u page index
  rw [ocrPage_tables u page index hwords, ne_eq, scanTables_eq_nil_iff]
  constructor
  · rintro ⟨hnil, hout⟩
    have hnot : ¬ Worded page := fun hw => htext.mpr hw hnil
    exact ⟨hwords, by_contra fun h => hnot ⟨hwords, h⟩⟩
  · rintro ⟨-, hout⟩
    refine ⟨by_contra fun h => (htext.mp h).2 hout, ?_⟩
    simp [hout]

end Pages

section Runs

variable (u : Tables) (minNativeChars maxPages : Nat)

def run (pages : List Page) : State := pages.foldl (addPage u minNativeChars) { ocrBudget := maxPages }

/-- What OCR gives to the record of a page, from the pages before it. -/
def given (before : List Page) (page : Page) : Text × List ExtractedTable :=
  if needsOcr u minNativeChars page ∧ 0 < (run u minNativeChars maxPages before).ocrBudget then
    ocrPage u page (before.length + 1)
  else ([], [])

/-- A page that spends some of the budget if there is any. -/
def spends (page : Page) : Bool := needsOcr u minNativeChars page && decide (Worded page)

variable {u minNativeChars maxPages}

theorem run_concat (before : List Page) (page : Page) :
    run u minNativeChars maxPages (before ++ [page]) =
      addPage u minNativeChars (run u minNativeChars maxPages before) page := by
  simp [run]

theorem run_units_length (pages : List Page) :
    (run u minNativeChars maxPages pages).units.length = pages.length := by
  induction pages using List.reverseRecOn with
  | nil => rfl
  | append_singleton pages page ih =>
    rw [run_concat]
    simp [addPage, ih]

/-- One more page: its unit, what OCR gave it and what its text layer holds. -/
theorem run_step (before : List Page) (page : Page) :
    let st := run u minNativeChars maxPages before
    let st' := run u minNativeChars maxPages (before ++ [page])
    let g := given u minNativeChars maxPages before page
    st'.units.map (·.text) = st.units.map (·.text) ++ [if g.1 = [] then page.text else g.1] ∧
    st'.tables = st.tables ++ (g.2 ++ ((page.rawTables.map (·.map (·.map (cleanCell u)))).filter
      tableHasContent).map fun rows => { unitIndex := before.length + 1, rows }) ∧
    st'.ocrPages = st.ocrPages ++ (if g.1 ≠ [] then [(before.length : Int) + 1] else []) ∧
    st'.skippedPages = st.skippedPages ++ (if needsOcr u minNativeChars page ∧ st.ocrBudget = 0 then
      [(before.length : Int) + 1] else []) ∧
    st'.ocrBudget = st.ocrBudget - (if g.1 ≠ [] then 1 else 0) := by
  dsimp only
  rw [run_concat]
  have hgiven : (if needsOcr u minNativeChars page = true ∧
      0 < (run u minNativeChars maxPages before).ocrBudget then
        ocrPage u page ((before.length : Int) + 1) else ([], [])) =
      given u minNativeChars maxPages before page := rfl
  simp only [addPage, run_units_length, hgiven]
  generalize given u minNativeChars maxPages before page = g
  refine ⟨by simp, by simp, ?_, ?_, ?_⟩
  · by_cases h : g.1 = [] <;> simp [h]
  · split <;> simp
  · by_cases h : g.1 = [] <;> simp [h]

theorem given_text_iff (before : List Page) (page : Page) :
    (given u minNativeChars maxPages before page).1 ≠ [] ↔
      spends u minNativeChars page = true ∧ 0 < (run u minNativeChars maxPages before).ocrBudget := by
  unfold given spends
  split
  · rename_i h
    simp [ocrPage_text_iff, h]
  · rename_i h
    simp only [ne_eq, not_true_eq_false, Bool.and_eq_true, decide_eq_true_eq, false_iff]
    exact fun hs => h ⟨hs.1.1, hs.2⟩

/-- The budget goes with the pages that OCR leaves a text. -/
theorem run_budget (pages : List Page) : (run u minNativeChars maxPages pages).ocrBudget =
    maxPages - pages.countP (spends u minNativeChars) := by
  induction pages using List.reverseRecOn with
  | nil => rfl
  | append_singleton pages page ih =>
    obtain ⟨-, -, -, -, hbudget⟩ := @run_step u minNativeChars maxPages pages page
    have htext := @given_text_iff u minNativeChars maxPages pages page
    rw [hbudget, List.countP_append, List.countP_singleton]
    by_cases hspends : spends u minNativeChars page = true
    · by_cases hleft : 0 < (run u minNativeChars maxPages pages).ocrBudget
      · rw [if_pos (htext.mpr ⟨hspends, hleft⟩), if_pos hspends]
        omega
      · rw [if_neg (fun h => hleft (htext.mp h).2), if_pos hspends]
        omega
    · rw [if_neg (fun h => hspends (htext.mp h).1), if_neg hspends]
      omega

/-- OCR gives a page tables and no text exactly where it is asked and the page is all table. -/
theorem given_wholly_iff (before : List Page) (page : Page) :
    (given u minNativeChars maxPages before page).1 = [] ∧
      given u minNativeChars maxPages before page ≠ ([], []) ↔
      needsOcr u minNativeChars page = true ∧
        before.countP (spends u minNativeChars) < maxPages ∧ WhollyTabular page := by
  have hleft : 0 < (run u minNativeChars maxPages before).ocrBudget ↔
      before.countP (spends u minNativeChars) < maxPages := by
    rw [run_budget]
    omega
  have hpair : ∀ g : Text × List ExtractedTable, g.1 = [] ∧ g ≠ ([], []) ↔ g.1 = [] ∧ g.2 ≠ [] := by
    rintro ⟨text, tables⟩
    simp only [ne_eq, Prod.mk.injEq, not_and]
    exact ⟨fun h => ⟨h.1, h.2 h.1⟩, fun h => ⟨h.1, fun _ => h.2⟩⟩
  rw [hpair, ← hleft]
  unfold given
  split
  · rename_i h
    rw [ocrPage_wholly_iff]
    simp [h]
  · rename_i h
    simp only [ne_eq, not_true_eq_false, and_false, false_iff]
    exact fun hs => h ⟨hs.1, hs.2.1⟩

section Listed

variable {f : List Page → List Int} {Q : List Page → Page → Prop}
  [∀ before page, Decidable (Q before page)]

/-- A list that gets the number of every page that passes a test holds just these numbers. -/
theorem mem_listed (h0 : f [] = []) (hstep : ∀ before page, f (before ++ [page]) =
      f before ++ if Q before page then [(before.length : Int) + 1] else [])
    (pages : List Page) (n : Int) :
    n ∈ f pages ↔ ∃ (i : Nat) (page : Page), pages[i]? = some page ∧ n = (i : Int) + 1 ∧
      Q (pages.take i) page := by
  induction pages using List.reverseRecOn with
  | nil => simp [h0]
  | append_singleton pages page ih =>
    rw [hstep, List.mem_append, ih]
    constructor
    · rintro (⟨i, p, hget, hn, hQ⟩ | hn)
      · have hlt := (List.getElem?_eq_some_iff.mp hget).1
        refine ⟨i, p, by rwa [List.getElem?_append_left hlt], hn, ?_⟩
        rwa [List.take_append_of_le_length (Nat.le_of_lt hlt)]
      · split at hn
        · rename_i hQ
          exact ⟨pages.length, page, by simp, List.mem_singleton.mp hn, by simpa using hQ⟩
        · cases hn
    · rintro ⟨i, p, hget, hn, hQ⟩
      by_cases hlt : i < pages.length
      · rw [List.getElem?_append_left hlt] at hget
        rw [List.take_append_of_le_length (Nat.le_of_lt hlt)] at hQ
        exact .inl ⟨i, p, hget, hn, hQ⟩
      · have hi := (List.getElem?_eq_some_iff.mp hget).1
        have heq : i = pages.length := by simp at hi; omega
        subst heq
        obtain rfl : page = p := by simpa using hget
        rw [List.take_left] at hQ
        exact .inr (by rw [if_pos hQ]; simpa using hn)

theorem listed_sorted (h0 : f [] = []) (hstep : ∀ before page, f (before ++ [page]) =
      f before ++ if Q before page then [(before.length : Int) + 1] else []) (pages : List Page) :
    (f pages).Pairwise (· < ·) := by
  induction pages using List.reverseRecOn with
  | nil => simp [h0]
  | append_singleton pages page ih =>
    rw [hstep, List.pairwise_append]
    refine ⟨ih, by split <;> simp, fun n hn m hm => ?_⟩
    obtain ⟨i, p, hget, rfl, -⟩ := (mem_listed h0 hstep pages n).mp hn
    have hlt := (List.getElem?_eq_some_iff.mp hget).1
    split at hm
    · rw [List.mem_singleton.mp hm]
      omega
    · cases hm

end Listed

variable (u minNativeChars maxPages) in
/-- The record agrees with what OCR gave: the pages read, the pages left for the budget and the
method. -/
structure RecordExact (headings : List Heading) (pages : List Page) : Prop where
  read : ∀ n, n ∈ (extract u minNativeChars maxPages headings pages).ocrPages ↔
    ∃ (i : Nat) (page : Page), pages[i]? = some page ∧ n = (i : Int) + 1 ∧
      given u minNativeChars maxPages (pages.take i) page ≠ ([], [])
  skipped : ∀ n, n ∈ (extract u minNativeChars maxPages headings pages).ocrSkippedPages ↔
    ∃ (i : Nat) (page : Page), pages[i]? = some page ∧ n = (i : Int) + 1 ∧
      needsOcr u minNativeChars page = true ∧
      (run u minNativeChars maxPages (pages.take i)).ocrBudget = 0
  sorted : (extract u minNativeChars maxPages headings pages).ocrPages.Pairwise (· < ·) ∧
    (extract u minNativeChars maxPages headings pages).ocrSkippedPages.Pairwise (· < ·)
  native : ∀ documentId, (extractionResult documentId pdfMime
      (extract u minNativeChars maxPages headings pages)).resolveMethod u = .native ↔
    ∀ (i : Nat) (page : Page), pages[i]? = some page →
      given u minNativeChars maxPages (pages.take i) page = ([], [])

theorem resolveMethod_native_iff (result : ExtractionResult) :
    result.resolveMethod u = .native ↔ result.ocrPages = [] := by
  unfold ExtractionResult.resolveMethod
  split
  · simp [*]
  · dsimp only
    split <;> simp [*]

theorem mem_ocrPages (headings : List Heading) (pages : List Page) (n : Int) :
    n ∈ (extract u minNativeChars maxPages headings pages).ocrPages ↔
      ∃ (i : Nat) (page : Page), pages[i]? = some page ∧ n = (i : Int) + 1 ∧
        (given u minNativeChars maxPages (pages.take i) page).1 ≠ [] :=
  mem_listed (f := fun pages => (run u minNativeChars maxPages pages).ocrPages) rfl
    (fun before page => (run_step before page).2.2.1) pages n

/-- The record is exact where no page that OCR is asked about is all table: the budget is left for
it where fewer pages before it have taken some. -/
theorem record_exact_iff (headings : List Heading) (pages : List Page) :
    RecordExact u minNativeChars maxPages headings pages ↔
      ∀ (i : Nat) (page : Page), pages[i]? = some page → needsOcr u minNativeChars page = true →
        (pages.take i).countP (spends u minNativeChars) < maxPages → ¬ WhollyTabular page := by
  constructor
  · intro h i page hget hneeds hleft hwholly
    obtain ⟨htext, hgiven⟩ := (given_wholly_iff (pages.take i) page).mpr ⟨hneeds, hleft, hwholly⟩
    have hlisted := (h.read (i + 1)).mpr ⟨i, page, hget, rfl, hgiven⟩
    obtain ⟨j, page', hget', hn, hread⟩ := (mem_ocrPages headings pages _).mp hlisted
    obtain rfl : j = i := by omega
    obtain rfl : page = page' := by simpa [hget] using hget'
    exact hread htext
  · intro h
    have hsame : ∀ (i : Nat) (page : Page), pages[i]? = some page →
        ((given u minNativeChars maxPages (pages.take i) page).1 ≠ [] ↔
          given u minNativeChars maxPages (pages.take i) page ≠ ([], [])) := by
      intro i page hget
      refine ⟨fun htext hnil => htext (by rw [hnil]), fun hgiven htext => ?_⟩
      obtain ⟨hneeds, hleft, hwholly⟩ := (given_wholly_iff _ _).mp ⟨htext, hgiven⟩
      exact h i page hget hneeds hleft hwholly
    have hread : ∀ n, n ∈ (extract u minNativeChars maxPages headings pages).ocrPages ↔
        ∃ (i : Nat) (page : Page), pages[i]? = some page ∧ n = (i : Int) + 1 ∧
          given u minNativeChars maxPages (pages.take i) page ≠ ([], []) := by
      intro n
      rw [mem_ocrPages]
      constructor
      · rintro ⟨i, page, hget, hn, htext⟩
        exact ⟨i, page, hget, hn, (hsame i page hget).mp htext⟩
      · rintro ⟨i, page, hget, hn, hgiven⟩
        exact ⟨i, page, hget, hn, (hsame i page hget).mpr hgiven⟩
    refine ⟨hread, ?_, ⟨?_, ?_⟩, fun documentId => ?_⟩
    · exact mem_listed (f := fun pages => (run u minNativeChars maxPages pages).skippedPages) rfl
        (fun before page => (run_step before page).2.2.2.1) pages
    · exact listed_sorted (f := fun pages => (run u minNativeChars maxPages pages).ocrPages) rfl
        (fun before page => (run_step before page).2.2.1) pages
    · exact listed_sorted (f := fun pages => (run u minNativeChars maxPages pages).skippedPages) rfl
        (fun before page => (run_step before page).2.2.2.1) pages
    · rw [resolveMethod_native_iff]
      constructor
      · intro hnone i page hget
        by_contra hgiven
        have hmem := (hread (i + 1)).mpr ⟨i, page, hget, rfl, hgiven⟩
        have hnil : (extract u minNativeChars maxPages headings pages).ocrPages = [] := hnone
        rw [hnil] at hmem
        cases hmem
      · intro hall
        apply List.eq_nil_iff_forall_not_mem.mpr
        intro n hn
        obtain ⟨i, page, hget, -, hgiven⟩ := (hread n).mp hn
        exact hgiven (hall i page hget)

end Runs

def tableScan : List Page :=
  [{ text := [], images := true, reading := some ⟨["Mar".toList, "341".toList], 0⟩,
     ruled := some ⟨[([["Mar".toList], ["341".toList]], [])], []⟩, rawTables := [] }]

/-- A scan that is one ruled table: the table is recorded, the page is not listed as read and the
document is called native. -/
theorem table_scan_unlisted : ¬ RecordExact asciiTables 20 500 [] tableScan := by
  intro h
  have hread := (h.read 1).mpr ⟨0, _, rfl, rfl, by decide +kernel⟩
  exact absurd hread (by decide +kernel)

end KnowledgeBase.Artifact.PdfTextExtractor
