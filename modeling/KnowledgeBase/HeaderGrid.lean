import KnowledgeBase.Table
import KnowledgeBase.TableRows

/-! A header drawn over two or three rows becomes one row of full column names. The grid comes from
a slide's table or from the ruled lines of a picture, with the merged block each position belongs
to. -/

namespace KnowledgeBase.Artifact.Grid

/-- The merged block a cell belongs to. -/
structure Span where
  row : Nat
  column : Nat
  height : Nat
  width : Nat
  deriving DecidableEq

/-- `grid[r][c]`, `none` where an index is out of range. -/
def at? {α : Type*} (grid : List (List α)) (r c : Nat) : Option α := grid[r]?.bind (·[c]?)

/-- Past the leading rows that are one block across the whole width. `none` where the loop does not
end within the fuel, or an index is out of range. -/
def titleEnd (spans : List (List (Option Span))) (nRows nCols : Nat) : Nat → Nat → Option Nat
  | 0, _ => none
  | fuel + 1, start =>
    if start < nRows ∧ 1 < nCols then
      match at? spans start 0 with
      | none => none
      | some none => some start
      | some (some b) =>
        if b.width = nCols then titleEnd spans nRows nCols fuel (b.row + b.height) else some start
    else some start

/-- The depth so far, with the block at one column of the header's first row. -/
def deepen (start nCols depth : Nat) : Option Span → Nat
  | none => depth
  | some b =>
    if b.row = start then
      if 1 < b.width ∧ b.width < nCols then max (max depth b.height) 2 else max depth b.height
    else depth

/-- As many rows as the tallest block that starts on the first, or two under a group name. -/
def headerDepth (spans : List (List (Option Span))) (nRows nCols start : Nat) : Option Nat :=
  (List.range nCols).foldlM (fun depth c =>
    if start < nRows then (at? spans start c).map (deepen start nCols depth) else some depth) 1

/-- The cells of one column of the header, without the empty ones and repetitions. -/
def headerParts (cells : List Text) : List Text :=
  cells.foldl (fun parts cell =>
    if cell ≠ [] ∧ parts.getLast? ≠ some cell then parts ++ [cell] else parts) []

def headerCell (rows : List (List Text)) (start depth c : Nat) : Option Text :=
  ((List.range' start depth).mapM fun r => at? rows r c).map fun cells =>
    join " " (headerParts cells)

def flattenHeader (fuel : Nat) (rows : List (List Text)) (spans : List (List (Option Span))) :
    Option (List (List Text)) := do
  let nRows := rows.length
  let nCols := (rows.head?.map List.length).getD 0
  let start ← titleEnd spans nRows nCols fuel 0
  let depth ← headerDepth spans nRows nCols start
  if 1 < depth ∧ depth ≤ 3 ∧ start + depth < nRows then
    let header ← (List.range nCols).mapM (headerCell rows start depth)
    return rows.take start ++ header :: rows.drop (start + depth)
  else return rows

/-- The block lies over the position. -/
def Span.Covers (b : Span) (r c : Nat) : Prop :=
  b.row ≤ r ∧ r < b.row + b.height ∧ b.column ≤ c ∧ c < b.column + b.width

instance (b : Span) (r c : Nat) : Decidable (b.Covers r c) :=
  inferInstanceAs (Decidable (_ ∧ _ ∧ _ ∧ _))

def Rectangular {α : Type*} (width : Nat) (grid : List (List α)) : Prop :=
  ∀ row ∈ grid, row.length = width

/-- A grid of spans over a table: every entry is a block over its own position. -/
structure SpanGrid (height width : Nat) (spans : List (List (Option Span))) : Prop where
  length : spans.length = height
  rectangular : Rectangular width spans
  inside : ∀ r c b, at? spans r c = some (some b) → b.Covers r c

/-- All positions of a block carry its entry. -/
def Whole (height width : Nat) (spans : List (List (Option Span))) : Prop :=
  ∀ r c b, at? spans r c = some (some b) →
    ∀ r' < height, ∀ c' < width, b.Covers r' c' → at? spans r' c' = some (some b)

/-- The row is one block across the table. -/
def IsTitle (width : Nat) (spans : List (List (Option Span))) (r : Nat) : Prop :=
  1 < width ∧ ∃ b, at? spans r 0 = some (some b) ∧ b.width = width

section Titles

variable {spans : List (List (Option Span))} {height width : Nat} {α : Type*} {grid : List (List α)}

theorem exists_at? (hlen : grid.length = height) (hrect : Rectangular width grid) {r c : Nat}
    (hr : r < height) (hc : c < width) : ∃ a, at? grid r c = some a := by
  have hrow : grid[r]? = some grid[r] := List.getElem?_eq_getElem (by omega)
  have hlen := hrect grid[r] (List.getElem_mem _)
  exact ⟨_, by rw [at?, hrow, Option.bind_some]; exact List.getElem?_eq_getElem (by omega)⟩

theorem at?_lt (hlen : grid.length = height) (hrect : Rectangular width grid) {r c : Nat} {a : α}
    (h : at? grid r c = some a) : r < height ∧ c < width := by
  obtain ⟨row, hrow, hget⟩ := Option.bind_eq_some_iff.mp h
  have hw := hrect row (List.mem_of_getElem? hrow)
  exact ⟨hlen ▸ (List.getElem?_eq_some_iff.mp hrow).1, hw ▸ (List.getElem?_eq_some_iff.mp hget).1⟩

/-- Each title moves the start past the row it is on, so the loop ends, at the first row that is
none. -/
theorem titleEnd_spec (h : SpanGrid height width spans) (start : Nat) : ∃ stop,
    (∀ fuel, 0 < fuel → height < start + fuel →
      titleEnd spans height width fuel start = some stop) ∧
      ¬ (stop < height ∧ IsTitle width spans stop) ∧ (Whole height width spans →
        ∀ r, start ≤ r → r < stop → r < height → IsTitle width spans r) := by
  induction hn : height - start using Nat.strong_induction_on generalizing start with
  | _ n ih =>
    by_cases hmore : start < height ∧ 1 < width
    · obtain ⟨entry, hentry⟩ := exists_at? h.length h.rectangular hmore.1 (by omega : 0 < width)
      by_cases htitle : ∃ b, entry = some b ∧ b.width = width
      · obtain ⟨b, rfl, hb⟩ := htitle
        have hcovers := h.inside start 0 b hentry
        have hrow := hcovers.1
        have hend := hcovers.2.1
        obtain ⟨stop, hfuel, hstop, htitles⟩ := ih _ (by omega) (b.row + b.height) rfl
        refine ⟨stop, fun fuel hpos hf => ?_, hstop, fun hwhole r hr hrs hrh => ?_⟩
        · obtain ⟨fuel, rfl⟩ : ∃ f, fuel = f + 1 := ⟨fuel - 1, by omega⟩
          rw [titleEnd, if_pos hmore, hentry]
          simp only [hb, if_true]
          exact hfuel fuel (by omega) (by omega)
        · by_cases hin : r < b.row + b.height
          · have hc := hcovers.2.2
            exact ⟨hmore.2, b, hwhole start 0 b hentry r hrh 0 (by omega) ⟨by omega, hin, hc⟩, hb⟩
          · exact htitles hwhole r (by omega) hrs hrh
      · refine ⟨start, fun fuel hpos hf => ?_, fun hstop => ?_, fun _ r hr hrs => by omega⟩
        · obtain ⟨fuel, rfl⟩ : ∃ f, fuel = f + 1 := ⟨fuel - 1, by omega⟩
          rw [titleEnd, if_pos hmore, hentry]
          cases entry with
          | none => rfl
          | some b => exact if_neg fun hb => htitle ⟨b, rfl, hb⟩
        · obtain ⟨-, -, b, hb, hwidth⟩ := hstop
          rw [hentry, Option.some.injEq] at hb
          exact htitle ⟨b, hb, hwidth⟩
    · refine ⟨start, fun fuel hpos hf => ?_, fun hstop => hmore ⟨hstop.1, hstop.2.1⟩,
        fun _ r hr hrs => by omega⟩
      obtain ⟨fuel, rfl⟩ : ∃ f, fuel = f + 1 := ⟨fuel - 1, by omega⟩
      rw [titleEnd, if_neg hmore]

end Titles

section Header

variable {spans : List (List (Option Span))} {rows : List (List Text)} {width start depth : Nat}

theorem headerDepth_eq (h : SpanGrid rows.length width spans) (start : Nat) :
    ∃ depth, headerDepth spans rows.length width start = some depth := by
  have hfold : ∀ (columns : List Nat), (∀ c ∈ columns, c < width) → ∀ depth, ∃ depth',
      columns.foldlM (fun depth c => if start < rows.length then
        (at? spans start c).map (deepen start width depth) else some depth) depth =
          some depth' := by
    intro columns
    induction columns with
    | nil => exact fun _ depth => ⟨depth, rfl⟩
    | cons c columns ih =>
      intro hcolumns depth
      obtain ⟨hc, hcolumns⟩ := List.forall_mem_cons.mp hcolumns
      rw [List.foldlM_cons]
      by_cases hstart : start < rows.length
      · obtain ⟨entry, hentry⟩ := exists_at? h.length h.rectangular hstart hc
        rw [if_pos hstart, hentry]
        exact ih hcolumns _
      · rw [if_neg hstart]
        exact ih hcolumns _
  exact hfold _ (fun c hc => List.mem_range.mp hc) 1

/-- A cell that is not empty is one of the parts. -/
theorem mem_headerParts {cells : List Text} {cell : Text} (h : cell ∈ cells) (hne : cell ≠ []) :
    cell ∈ headerParts cells := by
  induction cells using List.reverseRecOn with
  | nil => cases h
  | append_singleton cells last ih =>
    have hstep : headerParts (cells ++ [last]) =
        if last ≠ [] ∧ (headerParts cells).getLast? ≠ some last then headerParts cells ++ [last]
        else headerParts cells := by
      rw [headerParts, List.foldl_append]
      rfl
    rw [hstep]
    rcases List.mem_append.mp h with h | h
    · have hin := ih h
      split
      · exact List.mem_append_left _ hin
      · exact hin
    · obtain rfl := List.mem_singleton.mp h
      split
      · simp
      · -- the part before is the same
        rename_i hsame
        exact List.mem_of_getLast? (by simpa [hne] using hsame)

/-- The column's one cell holds every cell it is made of. -/
theorem headerCell_spec (hrect : Rectangular width rows) {c : Nat} (hc : c < width)
    (hin : start + depth ≤ rows.length) : ∃ name, headerCell rows start depth c = some name ∧
      ∀ r cell, start ≤ r → r < start + depth → at? rows r c = some cell → cell ≠ [] →
        cell <:+: name := by
  have hcells : ∀ rs : List Nat, (∀ r ∈ rs, r < rows.length) → ∃ cells,
      rs.mapM (fun r => at? rows r c) = some cells ∧
        ∀ r ∈ rs, ∀ cell, at? rows r c = some cell → cell ∈ cells := by
    intro rs
    induction rs with
    | nil => exact fun _ => ⟨[], rfl, nofun⟩
    | cons r rs ih =>
      intro hrs
      obtain ⟨hr, hrs⟩ := List.forall_mem_cons.mp hrs
      obtain ⟨cell, hcell⟩ := exists_at? rfl hrect hr hc
      obtain ⟨cells, hmap, hmem⟩ := ih hrs
      refine ⟨cell :: cells, by simp [List.mapM_cons, hcell, hmap], ?_⟩
      refine List.forall_mem_cons.mpr ⟨fun a ha => ?_, fun r hr a ha => ?_⟩
      · rw [hcell, Option.some.injEq] at ha
        simp [ha]
      · exact List.mem_cons_of_mem _ (hmem r hr a ha)
  obtain ⟨cells, hmap, hmem⟩ := hcells (List.range' start depth) fun r hr => by
    have := List.mem_range'_1.mp hr
    omega
  refine ⟨join " " (headerParts cells), by rw [headerCell, hmap, Option.map_some], ?_⟩
  intro r cell hr hrd hcell hne
  exact infix_join (mem_headerParts (hmem r (List.mem_range'_1.mpr ⟨hr, hrd⟩) cell hcell) hne)

/-- The header as a whole: a cell for each column. -/
theorem header_spec (hrect : Rectangular width rows) (hin : start + depth ≤ rows.length) :
    ∃ header, (List.range width).mapM (headerCell rows start depth) = some header ∧
      header.length = width ∧
      ∀ r c cell, start ≤ r → r < start + depth → at? rows r c = some cell → cell ≠ [] →
        ∃ name, header[c]? = some name ∧ cell <:+: name := by
  have hcolumns : ∀ columns : List Nat, (∀ c ∈ columns, c < width) → ∃ header,
      columns.mapM (headerCell rows start depth) = some header ∧
        List.Forall₂ (fun c name => headerCell rows start depth c = some name) columns header := by
    intro columns
    induction columns with
    | nil => exact fun _ => ⟨[], rfl, .nil⟩
    | cons c columns ih =>
      intro hcolumns
      obtain ⟨hc, hcolumns⟩ := List.forall_mem_cons.mp hcolumns
      obtain ⟨name, hname, -⟩ := headerCell_spec hrect hc hin
      obtain ⟨header, hmap, hall⟩ := ih hcolumns
      exact ⟨name :: header, by simp [List.mapM_cons, hname, hmap], .cons hname hall⟩
  obtain ⟨header, hmap, hall⟩ := hcolumns _ fun c hc => List.mem_range.mp hc
  have hlen : header.length = width := by rw [← hall.length_eq, List.length_range]
  refine ⟨header, hmap, hlen, fun r c cell hr hrd hcell hne => ?_⟩
  have hc := (at?_lt rfl hrect hcell).2
  obtain ⟨name, hname, hcells⟩ := headerCell_spec hrect hc hin
  refine ⟨name, ?_, hcells r cell hr hrd hcell hne⟩
  have hget : header[c]? = some header[c] := List.getElem?_eq_getElem (by omega)
  have hat := hall.get (i := c) (by simpa using hc) (by omega)
  simp only [List.get_eq_getElem, List.getElem_range, hname, Option.some.injEq] at hat
  rw [hget, hat]

end Header

variable {rows : List (List Text)} {spans : List (List (Option Span))} {width : Nat}

/-- The header is merged into one row, and the rest of the table is left as it was. -/
structure Flattened (rows : List (List Text)) (start depth : Nat) (out : List (List Text)) :
    Prop where
  within : start + depth < rows.length
  merges : 1 < depth
  rest : ∃ header, out = rows.take start ++ header :: rows.drop (start + depth) ∧
    ∀ r c cell, start ≤ r → r < start + depth → at? rows r c = some cell → cell ≠ [] →
      ∃ name, header[c]? = some name ∧ cell <:+: name

theorem flattenHeader_spec (hne : rows ≠ []) (hrect : Rectangular width rows)
    (hspans : SpanGrid rows.length width spans) :
    ∃ out, (∀ fuel, rows.length < fuel → flattenHeader fuel rows spans = some out) ∧
      Rectangular width out ∧ (out = rows ∨ ∃ start depth, Flattened rows start depth out ∧
        (Whole rows.length width spans → ∀ r < start, IsTitle width spans r) ∧
        ¬ IsTitle width spans start) := by
  obtain ⟨row, rest, hrows⟩ := List.exists_cons_of_ne_nil hne
  have hwidth : (rows.head?.map List.length).getD 0 = width := by
    rw [hrows]
    exact hrect row (by simp [hrows])
  obtain ⟨start, hstart, hstop, htitles⟩ := titleEnd_spec hspans 0
  obtain ⟨depth, hdepth⟩ := headerDepth_eq hspans start
  by_cases hmerge : 1 < depth ∧ depth ≤ 3 ∧ start + depth < rows.length
  · obtain ⟨header, hheader, hlen, hcells⟩ := header_spec hrect (Nat.le_of_lt hmerge.2.2)
    refine ⟨rows.take start ++ header :: rows.drop (start + depth), fun fuel hf => ?_, ?_,
      .inr ⟨start, depth, ⟨hmerge.2.2, hmerge.1, header, rfl, hcells⟩, fun hwhole r hr => ?_,
        fun htitle => hstop ⟨by omega, htitle⟩⟩⟩
    · simp only [flattenHeader, hwidth, hstart fuel (by omega) (by omega), hdepth, hheader,
        Option.bind_eq_bind, Option.bind_some, if_pos hmerge]
      rfl
    · intro row hrow
      rcases List.mem_append.mp hrow with h | h
      · exact hrect row (List.mem_of_mem_take h)
      · rcases List.mem_cons.mp h with rfl | h
        · exact hlen
        · exact hrect row (List.mem_of_mem_drop h)
    · exact htitles hwhole r (Nat.zero_le r) hr (by omega)
  · refine ⟨rows, fun fuel hf => ?_, hrect, .inl rfl⟩
    simp only [flattenHeader, hwidth, hstart fuel (by omega) (by omega), hdepth,
      Option.bind_eq_bind, Option.bind_some, if_neg hmerge]
    rfl

/-- A group name over its two columns, and a name beside it that spans both rows. -/
def norms : List (List Text) :=
  [["Unit", "SO2", "SO2"], ["Unit", "< 500 MW", ">= 500 MW"], ["1", "600", "200"]].map
    (·.map String.toList)

def normSpans : List (List (Option Span)) :=
  [[some ⟨0, 0, 2, 1⟩, some ⟨0, 1, 1, 2⟩, some ⟨0, 1, 1, 2⟩], [some ⟨0, 0, 2, 1⟩, none, none],
    [none, none, none]]

theorem normSpans_grid : SpanGrid norms.length 3 normSpans := by
  have hrect : Rectangular 3 normSpans := by unfold Rectangular; decide
  have hall : ∀ r < 3, ∀ c < 3, (at? normSpans r c).all (·.all (Span.Covers · r c)) = true := by
    decide
  refine ⟨rfl, hrect, fun r c b hb => ?_⟩
  obtain ⟨hr, hc⟩ := at?_lt rfl hrect hb
  simpa [hb] using hall r hr c hc

theorem normSpans_whole : Whole norms.length 3 normSpans := by
  have hall : ∀ r < 3, ∀ c < 3, ∀ r' < 3, ∀ c' < 3, (at? normSpans r c).all (·.all fun b =>
      !decide (b.Covers r' c') || at? normSpans r' c' = some (some b)) = true := by decide
  intro r c b hb r' hr' c' hc' hcovers
  obtain ⟨hr, hc⟩ := at?_lt normSpans_grid.length normSpans_grid.rectangular hb
  simpa [hb, hcovers] using hall r hr c hc r' hr' c' hc'

example : flattenHeader 4 norms normSpans = some ([["Unit", "SO2 < 500 MW", "SO2 >= 500 MW"],
    ["1", "600", "200"]].map (·.map String.toList)) := by decide

section Slides

/-- A cell of a slide's table: its text, the height and width of the block it is the origin of, and
its colour. -/
structure SlideCell where
  text : Text
  origin : Option (Nat × Nat)
  fill : Option String

structure SlideTable where
  nRows : Nat
  nCols : Nat
  cell : Nat → Nat → SlideCell

/-- The block is written over the positions it spans. -/
def cover (spans : List (List (Option Span))) (b : Span) : List (List (Option Span)) :=
  spans.mapIdx fun r row => row.mapIdx fun c old => if b.Covers r c then some b else old

def coverFrom (table : SlideTable) (spans : List (List (Option Span))) (p : Nat × Nat) :
    List (List (Option Span)) :=
  match (table.cell p.1 p.2).origin with
  | none => spans
  | some (height, width) => cover spans ⟨p.1, p.2, height, width⟩

def gridSpans (table : SlideTable) : List (List (Option Span)) :=
  (List.product (List.range table.nRows) (List.range table.nCols)).foldl (coverFrom table)
    (List.replicate table.nRows (List.replicate table.nCols none))

/-- What a cell says by itself: the label laid over it, or its text. -/
def ownText (u : Tables) (table : SlideTable) (labels : List ((Nat × Nat) × Text)) (r c : Nat) :
    Text :=
  (Table.get labels (r, c)).getD (trim u (table.cell r c).text)

/-- The text of the block, once only where the block is a title; or what its colour says. -/
def slideText (u : Tables) (table : SlideTable) (legend : List (String × Text))
    (labels : List ((Nat × Nat) × Text)) (r c : Nat) : Text :=
  let text := match (at? (gridSpans table) r c).join with
    | none => ownText u table labels r c
    | some b =>
      if 1 < table.nCols ∧ b.width = table.nCols ∧ (r, c) ≠ (b.row, b.column) then []
      else ownText u table labels b.row b.column
  if text = [] then
    match (table.cell r c).fill.bind (Table.get legend) with
    | none => []
    | some meaning => "(".toList ++ meaning ++ ")".toList
  else text

def pptxTableRows (u : Tables) (fuel : Nat) (table : SlideTable) (legend : List (String × Text))
    (labels : List ((Nat × Nat) × Text)) : Option (List (List Text)) :=
  flattenHeader fuel ((List.range table.nRows).map fun r => (List.range table.nCols).map fun c =>
    slideText u table legend labels r c) (gridSpans table)

theorem at?_cover (b : Span) (r c : Nat) : at? (cover spans b) r c =
    (at? spans r c).map fun old => if b.Covers r c then some b else old := by
  simp only [at?, cover, List.getElem?_mapIdx]
  cases spans[r]? with
  | none => rfl
  | some row => simp

theorem SpanGrid.cover {height : Nat} (h : SpanGrid height width spans) (b : Span) :
    SpanGrid height width (cover spans b) := by
  refine ⟨by simp [Grid.cover, h.length], fun row hrow => ?_, fun r c b' hb => ?_⟩
  · obtain ⟨r, hr, rfl⟩ := List.mem_mapIdx.mp hrow
    rw [List.length_mapIdx]
    exact h.rectangular _ (List.getElem_mem hr)
  · rw [at?_cover] at hb
    obtain ⟨old, hold, hnew⟩ := Option.map_eq_some_iff.mp hb
    split at hnew
    · rename_i hcovers
      exact Option.some.inj hnew ▸ hcovers
    · exact h.inside r c b' (hnew ▸ hold)

theorem spanGrid_blank (height width : Nat) :
    SpanGrid height width (List.replicate height (List.replicate width none)) := by
  refine ⟨List.length_replicate, fun row hrow => ?_, fun r c b hb => ?_⟩
  · rw [List.eq_of_mem_replicate hrow, List.length_replicate]
  · obtain ⟨row, hrow, hget⟩ := Option.bind_eq_some_iff.mp hb
    rw [List.eq_of_mem_replicate (List.mem_of_getElem? hrow)] at hget
    cases List.eq_of_mem_replicate (List.mem_of_getElem? hget)

theorem gridSpans_grid (table : SlideTable) :
    SpanGrid table.nRows table.nCols (gridSpans table) := by
  have hfold : ∀ (ps : List (Nat × Nat)) (spans : List (List (Option Span))),
      SpanGrid table.nRows table.nCols spans →
        SpanGrid table.nRows table.nCols (ps.foldl (coverFrom table) spans) := by
    intro ps
    induction ps with
    | nil => exact fun _ h => h
    | cons p ps ih =>
      intro spans h
      apply ih
      unfold coverFrom
      split
      · exact h
      · exact h.cover _
  exact hfold _ _ (spanGrid_blank _ _)

/-- Every slide's table is read, as wide as it is drawn. -/
theorem pptxTableRows_returns (u : Tables) {table : SlideTable} (hrows : 0 < table.nRows)
    (legend : List (String × Text)) (labels : List ((Nat × Nat) × Text)) :
    ∃ out, (∀ fuel, table.nRows < fuel → pptxTableRows u fuel table legend labels = some out) ∧
      Rectangular table.nCols out := by
  obtain ⟨rows, hdef⟩ : ∃ rows, rows = (List.range table.nRows).map fun r =>
    (List.range table.nCols).map fun c => slideText u table legend labels r c := ⟨_, rfl⟩
  have hlen : rows.length = table.nRows := by simp [hdef]
  have hrect : Rectangular table.nCols rows := by
    intro row hrow
    rw [hdef] at hrow
    obtain ⟨r, -, rfl⟩ := List.mem_map.mp hrow
    simp
  obtain ⟨out, hout, hwidth, -⟩ := flattenHeader_spec (List.ne_nil_of_length_pos (by omega)) hrect
    (hlen ▸ gridSpans_grid table)
  refine ⟨out, fun fuel hf => ?_, hwidth⟩
  rw [pptxTableRows, ← hdef]
  exact hout fuel (by omega)

end Slides

section Pictures

variable {β : Type*} [DecidableEq β]

/-- A short row is filled up with its last box. -/
def padRow (nCols : Nat) (row : List β) : Option (List β) :=
  row.getLast?.map fun last => row ++ List.replicate (nCols - row.length) last

/-- The boxes of a ruled grid at every position, `none` where a row has no box. -/
def padded (cells : List (List β)) : Option (List (List β)) :=
  cells.mapM (padRow ((cells.map List.length).max?.getD 0))

def places (boxes : List (List β)) (box : β) : List (Nat × Nat) :=
  ((List.range boxes.length).flatMap fun r =>
    (List.range ((boxes[r]?.map List.length).getD 0)).map fun c => (r, c)).filter fun p =>
      at? boxes p.1 p.2 = some box

/-- The rows and columns some positions lie in. -/
def bounds (ps : List (Nat × Nat)) : Span :=
  let top := (ps.map Prod.fst).min?.getD 0
  let left := (ps.map Prod.snd).min?.getD 0
  { row := top
    column := left
    height := (ps.map Prod.fst).max?.getD 0 - top + 1
    width := (ps.map Prod.snd).max?.getD 0 - left + 1 }

/-- Positions that share a box are one block. -/
def blockSpans (boxes : List (List β)) : List (List (Option Span)) :=
  boxes.map fun row => row.map fun box =>
    if 1 < (places boxes box).length then some (bounds (places boxes box)) else none

/-- The text of the box at each position, once only where its block is a title. -/
def pictureRows (text : β → Text) (boxes : List (List β)) : List (List Text) :=
  let nCols := (boxes.map List.length).max?.getD 0
  boxes.mapIdx fun r row => row.mapIdx fun c box =>
    match (at? (blockSpans boxes) r c).join with
    | none => text box
    | some b =>
      if 1 < nCols ∧ b.width = nCols ∧ (r, c) ≠ (b.row, b.column) then [] else text box

theorem bounds_covers {ps : List (Nat × Nat)} {p : Nat × Nat} (h : p ∈ ps) :
    (bounds ps).Covers p.1 p.2 := by
  have hside : ∀ ns : List Nat, ∀ n ∈ ns, ns.min?.getD 0 ≤ n ∧ n ≤ ns.max?.getD 0 := by
    intro ns n hn
    obtain ⟨low, hlow⟩ := Option.isSome_iff_exists.mp (List.isSome_min?_of_mem hn)
    obtain ⟨high, hhigh⟩ := Option.isSome_iff_exists.mp (List.isSome_max?_of_mem hn)
    rw [hlow, hhigh]
    exact ⟨(List.min?_eq_some_iff.mp hlow).2 n hn, (List.max?_eq_some_iff.mp hhigh).2 n hn⟩
  have hrow := hside _ _ (List.mem_map_of_mem (f := Prod.fst) h)
  have hcol := hside _ _ (List.mem_map_of_mem (f := Prod.snd) h)
  simp only [Span.Covers, bounds]
  omega

theorem blockSpans_grid {boxes : List (List β)} {width : Nat} (hrect : Rectangular width boxes) :
    SpanGrid boxes.length width (blockSpans boxes) := by
  refine ⟨by simp [blockSpans], fun row hrow => ?_, fun r c b hb => ?_⟩
  · obtain ⟨row, hmem, rfl⟩ := List.mem_map.mp hrow
    rw [List.length_map]
    exact hrect row hmem
  · obtain ⟨box, hbox, hspan⟩ : ∃ box, at? boxes r c = some box ∧
        (if 1 < (places boxes box).length then some (bounds (places boxes box)) else none) =
          some b := by
      obtain ⟨row, hrow, hget⟩ := Option.bind_eq_some_iff.mp hb
      rw [blockSpans, List.getElem?_map] at hrow
      obtain ⟨row', hrow', rfl⟩ := Option.map_eq_some_iff.mp hrow
      rw [List.getElem?_map] at hget
      obtain ⟨box, hbox, hspan⟩ := Option.map_eq_some_iff.mp hget
      exact ⟨box, by rw [at?, hrow', Option.bind_some, hbox], hspan⟩
    split at hspan
    · obtain rfl := Option.some.inj hspan
      obtain ⟨hr, hc⟩ := at?_lt rfl hrect hbox
      refine bounds_covers (p := (r, c)) (List.mem_filter.mpr ⟨?_, by simpa using hbox⟩)
      have hrow : boxes[r]?.map List.length = some width := by
        rw [List.getElem?_eq_getElem hr, Option.map_some, hrect _ (List.getElem_mem hr)]
      refine List.mem_flatMap.mpr ⟨r, List.mem_range.mpr hr, List.mem_map.mpr ⟨c, ?_, rfl⟩⟩
      rw [hrow]
      exact List.mem_range.mpr hc
    · cases hspan

theorem padded_rectangular {cells boxes : List (List β)} (h : padded cells = some boxes) :
    boxes.length = cells.length ∧ Rectangular ((cells.map List.length).max?.getD 0) boxes := by
  obtain ⟨nCols, hn⟩ : ∃ n, n = (cells.map List.length).max?.getD 0 := ⟨_, rfl⟩
  have hle : ∀ row ∈ cells, row.length ≤ nCols := by
    intro row hrow
    have hmem := List.mem_map_of_mem (f := List.length) hrow
    obtain ⟨high, hhigh⟩ := Option.isSome_iff_exists.mp (List.isSome_max?_of_mem hmem)
    rw [hn, hhigh]
    exact (List.max?_eq_some_iff.mp hhigh).2 _ hmem
  rw [padded, ← hn] at h
  rw [← hn]
  clear hn
  induction cells generalizing boxes with
  | nil =>
    obtain rfl := Option.some.inj h
    exact ⟨rfl, nofun⟩
  | cons row cells ih =>
    obtain ⟨hrow, hcells⟩ := List.forall_mem_cons.mp hle
    simp only [List.mapM_cons, Option.bind_eq_bind, Option.bind_eq_some_iff] at h
    obtain ⟨first, hfirst, rest, hrest, h⟩ := h
    obtain rfl := Option.some.inj h
    obtain ⟨hlen, hrect⟩ := ih hrest hcells
    obtain ⟨last, -, rfl⟩ := Option.map_eq_some_iff.mp hfirst
    refine ⟨by simp [hlen], List.forall_mem_cons.mpr ⟨?_, hrect⟩⟩
    rw [List.length_append, List.length_replicate]
    omega

/-- Every ruled grid is read, as wide as it is drawn, whatever blocks its boxes make. -/
theorem pictureRows_returns {cells boxes : List (List β)} (hcells : padded cells = some boxes)
    (hne : cells ≠ []) (text : β → Text) : ∃ out, (∀ fuel, boxes.length < fuel →
      flattenHeader fuel (pictureRows text boxes) (blockSpans boxes) = some out) ∧
        Rectangular ((cells.map List.length).max?.getD 0) out := by
  obtain ⟨hlen, hrect⟩ := padded_rectangular hcells
  have hrows : (pictureRows text boxes).length = boxes.length := by simp [pictureRows]
  have hwidth : Rectangular ((cells.map List.length).max?.getD 0) (pictureRows text boxes) := by
    intro row hrow
    obtain ⟨r, hr, rfl⟩ := List.mem_mapIdx.mp hrow
    rw [List.length_mapIdx]
    exact hrect _ (List.getElem_mem hr)
  have hpos := List.length_pos_iff.mpr hne
  obtain ⟨out, hout, hwide, -⟩ := flattenHeader_spec (List.ne_nil_of_length_pos (by omega)) hwidth
    (hrows ▸ blockSpans_grid hrect)
  exact ⟨out, fun fuel hf => hout fuel (by omega), hwide⟩

end Pictures

end KnowledgeBase.Artifact.Grid
