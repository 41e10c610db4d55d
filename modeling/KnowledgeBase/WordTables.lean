import KnowledgeBase.Extraction

/-! The rows of a Word table. A cell merged over several columns of the grid is kept once, so what
stands after it in its row moves to the left. -/

namespace KnowledgeBase.Artifact.DocxTextExtractor

/-- The cell that covers a column of the grid: its element and its text. -/
structure WordCell where
  tc : Nat
  text : Text

/-- The texts of a row's cells, from the element before on, with the same element once. -/
def keepOnce : Option Nat → List WordCell → List Text
  | _, [] => []
  | previous, cell :: cells =>
    if previous = some cell.tc then keepOnce previous cells
    else cell.text :: keepOnce (some cell.tc) cells

/-- A table is a list of rows, and a row has a cell for each column of the grid. -/
def docxRows (u : Tables) (table : List (List WordCell)) : List (List Text) :=
  (table.map (keepOnce none)).map (·.map (trim u))

/-- What a block of the body holds of the table is its rows before they are stripped. -/
theorem addBlock_docxRows (u : Tables) (st : State) (table : List (List WordCell)) :
    addBlock u st (.table [] [] (table.map (keepOnce none))) =
      if tableHasContent (docxRows u table) then addTable st (docxRows u table) else st := by
  simp [addBlock, addParts, docxRows]

section Columns

/-- The element to the left of a column. -/
def before (previous : Option Nat) (row : List WordCell) : Nat → Option Nat
  | 0 => previous
  | k + 1 => (row[k]?).map (·.tc)

/-- A cell starts at a column of the grid. -/
def Starts (previous : Option Nat) (row : List WordCell) (k : Nat) : Prop :=
  ∃ cell, row[k]? = some cell ∧ before previous row k ≠ some cell.tc

variable {previous : Option Nat} {cell : WordCell} {row : List WordCell}

theorem starts_zero : Starts previous (cell :: row) 0 ↔ previous ≠ some cell.tc := by
  simp [Starts, before]

theorem starts_succ {k : Nat} :
    Starts previous (cell :: row) (k + 1) ↔ Starts (some cell.tc) row k := by
  cases k <;> simp [Starts, before]

theorem Starts.lt {k : Nat} (h : Starts previous row k) : k < row.length := by
  obtain ⟨cell, hcell, -⟩ := h
  exact (List.getElem?_eq_some_iff.mp hcell).1

theorem keepOnce_cons : keepOnce previous (cell :: row) =
    (if previous = some cell.tc then [] else [cell.text]) ++ keepOnce (some cell.tc) row := by
  rw [keepOnce]
  split
  · rename_i h
    rw [h, List.nil_append]
  · rfl

/-- Where every column up to a cell's starts one, the cell keeps its place. -/
theorem keepOnce_getElem? {k : Nat} (hk : Starts previous row k)
    (hall : ∀ j < k, Starts previous row j) :
    (keepOnce previous row)[k]? = (row[k]?).map (·.text) := by
  induction row generalizing previous k with
  | nil => simpa using hk.lt
  | cons cell row ih =>
    have hzero : previous ≠ some cell.tc := by
      cases k with
      | zero => exact starts_zero.mp hk
      | succ k => exact starts_zero.mp (hall 0 (Nat.succ_pos k))
    rw [keepOnce_cons, if_neg hzero]
    cases k with
    | zero => rfl
    | succ k =>
      exact ih (starts_succ.mp hk) fun j hj => starts_succ.mp (hall (j + 1) (Nat.succ_lt_succ hj))

/-- As many texts as columns that start a cell: no more than the last of them says, and fewer
where one before it starts none. -/
theorem keepOnce_length_le {n : Nat} (h : ∀ j, Starts previous row j → j < n) :
    (keepOnce previous row).length ≤ n := by
  induction row generalizing previous n with
  | nil => simp [keepOnce]
  | cons cell row ih =>
    have hrest : ∀ j, Starts (some cell.tc) row j → j < n - 1 := by
      intro j hj
      have := h (j + 1) (starts_succ.mpr hj)
      omega
    have hlen := ih hrest
    rw [keepOnce_cons]
    by_cases hzero : previous = some cell.tc
    · rw [if_pos hzero]
      simp only [List.nil_append]
      omega
    · have := h 0 (starts_zero.mpr hzero)
      rw [if_neg hzero]
      simp only [List.singleton_append, List.length_cons]
      omega

theorem keepOnce_length_lt {n g : Nat} (h : ∀ j, Starts previous row j → j < n) (hg : g < n)
    (hrow : g < row.length) (hgap : ¬ Starts previous row g) :
    (keepOnce previous row).length < n := by
  induction row generalizing previous n g with
  | nil => simp at hrow
  | cons cell row ih =>
    have hrest : ∀ j, Starts (some cell.tc) row j → j < n - 1 := by
      intro j hj
      have := h (j + 1) (starts_succ.mpr hj)
      omega
    rw [keepOnce_cons]
    by_cases hzero : previous = some cell.tc
    · have := keepOnce_length_le hrest
      rw [if_pos hzero]
      simp only [List.nil_append]
      omega
    · rw [if_neg hzero]
      cases g with
      | zero => exact absurd (starts_zero.mpr hzero) hgap
      | succ g =>
        have := ih hrest (by omega) (by simpa using hrow) fun hs => hgap (starts_succ.mpr hs)
        simp only [List.singleton_append, List.length_cons]
        omega

/-- Every cell of a row keeps its column exactly where no column before a cell is a further one of
a merged cell. -/
theorem row_kept_iff (u : Tables) (row : List WordCell) :
    (∀ (k : Nat) (cell : WordCell), row[k]? = some cell → Starts none row k →
      ((keepOnce none row).map (trim u))[k]? = some (trim u cell.text)) ↔
      ∀ k, Starts none row k → ∀ j < k, Starts none row j := by
  classical
  constructor
  · intro h k hk j hj
    by_contra hgap
    -- the last cell has no place left in the shorter row
    obtain ⟨last, hlast, hmax⟩ : ∃ last, Starts none row last ∧ ∀ i, Starts none row i → i ≤ last :=
      ⟨Nat.findGreatest (Starts none row) row.length,
        Nat.findGreatest_spec (Nat.le_of_lt hk.lt) hk,
        fun i hi => Nat.le_findGreatest (Nat.le_of_lt hi.lt) hi⟩
    obtain ⟨cell, hcell, -⟩ := id hlast
    have hplace := (List.getElem?_eq_some_iff.mp (h last cell hcell hlast)).1
    have hshort : (keepOnce none row).length < last + 1 := by
      apply keepOnce_length_lt (fun i hi => Nat.lt_succ_of_le (hmax i hi)) _ (hj.trans hk.lt) hgap
      exact (hj.trans_le (hmax k hk)).trans (Nat.lt_succ_self last)
    rw [List.length_map] at hplace
    omega
  · intro h k cell hcell hk
    rw [List.getElem?_map, keepOnce_getElem? hk (h k hk), hcell]
    rfl

end Columns

/-- The text of a cell that starts at a column of the grid stands at that column of its row exactly
where, in every row, only the last cell is merged over several columns. -/
theorem columns_kept_iff (u : Tables) (table : List (List WordCell)) :
    (∀ (r : Nat) (row : List WordCell), table[r]? = some row → ∀ (k : Nat) (cell : WordCell),
      row[k]? = some cell → Starts none row k →
        ((docxRows u table)[r]?.bind fun texts => texts[k]?) = some (trim u cell.text)) ↔
      ∀ row ∈ table, ∀ k, Starts none row k → ∀ j < k, Starts none row j := by
  have hrow : ∀ (r : Nat) (row : List WordCell), table[r]? = some row → ∀ k : Nat,
      ((docxRows u table)[r]?.bind fun texts => texts[k]?) = ((keepOnce none row).map (trim u))[k]? := by
    intro r row hr k
    simp [docxRows, hr]
  constructor
  · intro h row hmem
    obtain ⟨r, hr⟩ := List.mem_iff_getElem?.mp hmem
    rw [← row_kept_iff u]
    intro k cell hcell hk
    rw [← hrow r row hr]
    exact h r row hr k cell hcell hk
  · intro h r row hr k cell hcell hk
    rw [hrow r row hr]
    exact (row_kept_iff u row).mpr (h row (List.mem_of_getElem? hr)) k cell hcell hk

/-- A header of three columns over a total merged over two of them. -/
def totals : List (List WordCell) :=
  [[⟨1, "Sector".toList⟩, ⟨2, "Units".toList⟩, ⟨3, "MW".toList⟩],
   [⟨4, "Total".toList⟩, ⟨4, "Total".toList⟩, ⟨5, "35".toList⟩]]

/-- The figure under the third header stands at the second. -/
theorem total_moves_left : ¬ ∀ (r : Nat) (row : List WordCell), totals[r]? = some row →
    ∀ (k : Nat) (cell : WordCell), row[k]? = some cell → Starts none row k →
      ((docxRows asciiTables totals)[r]?.bind fun texts => texts[k]?) = some (trim asciiTables cell.text) := by
  intro h
  have hmoved := h 1 _ rfl 2 ⟨5, "35".toList⟩ rfl ⟨_, rfl, by simp [before]⟩
  revert hmoved
  decide +kernel

end KnowledgeBase.Artifact.DocxTextExtractor
